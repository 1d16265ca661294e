/-
# `LiteBSD.Net.Uplink` — the way out, with the arrays that packets are built in

`sock_sendto` of `src/socket.c` and what it calls.  Each of these functions
builds its packet in an array on its stack and hands it on with a length of 16
bits; a store behind the end of an array is `undefined` here, and so is a read
of bytes that were not stored (`fill`, `load`).

While a packet is on its way `arp_resolve` polls the device, and the loopback
device hands it to the receive path at once.  The segments that the socket gets
meanwhile are `arrives`.

What `ipv4_send` does is one equation, `ipv4Send_eq`: the frame is that of
`LiteBSD.ipv4Send`, and no array is too small for it.
-/
import LiteBSD.Net.Checksum

namespace LiteBSD

/-! ## Arrays -/

/-- Bytes are stored behind those in an array of this size. -/
def fill (size : Nat) (done src : List UInt8) : Exec (List UInt8) :=
  if done.length + src.length ≤ size then .ret (done ++ src) else .undefined

/-- The first bytes of an array are read. -/
def load (array : List UInt8) (len : Nat) : Exec (List UInt8) :=
  if len ≤ array.length then .ret (array.take len) else .undefined

theorem fill_eq {size : Nat} {done src : List UInt8} (h : done.length + src.length ≤ size) :
    fill size done src = .ret (done ++ src) := if_pos h

theorem load_eq {array : List UInt8} {len : Nat} (h : len ≤ array.length) : load array len = .ret (array.take len) :=
  if_pos h

theorem int32_eq_neg_one {n : Nat} (hn : n < 4294967296) : int32 n = -1 ↔ n = 4294967295 := by
  unfold int32
  split <;> omega

theorem int32_of_lt {n : Nat} (hn : n < 2147483648) : int32 n = n := if_pos hn

/-! ## Sending -/

/-- A call of `ipv4_send`: the bytes it was handed, and its result. -/
structure Ipv4Call where
  dstIp : Nat
  proto : Nat
  payload : List UInt8
  result : Int

/-- The default device and what is behind it, with the calls of `ipv4_send` and
the frames so far.  For the call of each number there is what `arp_resolve`
comes back with, whether the driver takes the frame, the segments that the
socket gets meanwhile, and the value of `s_ip_id`. -/
structure Uplink where
  dev : Option NetConfig
  resolve : Nat → Nat → Option Mac
  accepts : Nat → Bool
  arrives : Nat → List Segment
  ids : Nat → Nat
  calls : List Ipv4Call
  frames : List (List UInt8)

namespace Uplink

def ethernetSend (u : Uplink) (dev : NetConfig) (dstMac : Mac) (ethertype : Nat) (payload : List UInt8) (len : Nat) :
    Exec (Uplink × Int) :=
  if len > 1500 then .ret (u, -1)
  else do
    let frame ← fill 1514 [] (dstMac.bytes ++ dev.mac.bytes ++ putBe16 ethertype)
    let src ← load payload len
    let frame ← fill 1514 frame src
    if u.accepts u.calls.length then .ret ({ u with frames := u.frames ++ [frame] }, 0) else .ret (u, -1)

/-- `ipv4_send`, before the call is recorded. -/
def ipv4Route (u : Uplink) (dev : NetConfig) (dstIp proto : Nat) (payload : List UInt8) (len : Nat) :
    Exec (Uplink × Int) :=
  if len > 1480 then .ret (u, -1)
  else
    match u.resolve u.calls.length (nextHop dev dstIp) with
    | none => .ret (u, -1)
    | some nextMac => do
        let ipId := u.ids u.calls.length
        let sum := netChecksum (ipHeader dev ipId dstIp proto len 0)
        let packet ← fill 1500 [] (ipHeader dev ipId dstIp proto len sum)
        let src ← load payload len
        let packet ← fill 1500 packet src
        u.ethernetSend dev nextMac ethertypeIpv4 packet (20 + len)

def ipv4Send (u : Uplink) (dev : NetConfig) (dstIp proto : Nat) (payload : List UInt8) (len : Nat) :
    Exec (Uplink × Int) := do
  let (v, r) ← u.ipv4Route dev dstIp proto payload len
  .ret ({ v with calls := v.calls ++ [⟨dstIp, proto, payload.take len, r⟩] }, r)

/-- The socket behind the next call. -/
def meanwhile (u : Uplink) (s : Socket) : Socket := (u.arrives u.calls.length).foldl tcpStep s

def tcpSendPacket (u : Uplink) (s : Socket) (flags : Nat) (payload : List UInt8) (len : Nat) :
    Exec (Uplink × Socket × Int) :=
  match u.dev with
  | none => .ret (u, s, -1)
  | some dev => do
      let src ← load payload len
      let buf ← fill 1500 (tcpSegment s flags 0 []) src
      let sum := tcpChecksum dev.ip s.remoteIp buf
      let (v, r) ← u.ipv4Send dev s.remoteIp ipprotoTcp (tcpSegment s flags sum src) ((20 + len) % 65536)
      .ret (v, u.meanwhile s, r)

/-- `sock->local_seq += chunk` -/
def advance (s : Socket) (chunk : Nat) : Socket := { s with localSeq := u32 (s.localSeq + chunk) }

/-- The loop over the chunks of a stream, with what is left to send. -/
def sendLoop (len : Nat) : Nat → Uplink → Socket → List UInt8 → Exec (Uplink × Socket × Int)
  | 0, _, _, _ => .hang
  | fuel + 1, u, s, rest =>
      if rest = [] then .ret (u, s, int32 len)
      else do
        let chunk := if rest.length > 1460 then 1460 else rest.length % 65536
        let (u, s, r) ← u.tcpSendPacket s (tcpFlagAck ||| tcpFlagPsh) rest chunk
        if r < 0 then .ret (u, s, if len = rest.length then -1 else int32 (len - rest.length))
        else sendLoop len fuel u (advance s chunk) (rest.drop chunk)

/-- The header of a datagram. -/
def udpHeader (srcPort dstPort len : Nat) : List UInt8 := putBe16 srcPort ++ putBe16 dstPort ++ putBe16 len ++ [0, 0]

/-- `sock_sendto`.  What comes in for a socket without a connection does not
matter here. -/
def sockSendto (u : Uplink) (s : Socket) (buf : List UInt8) (dstIp dstPort : Nat) : Exec (Uplink × Socket × Int) :=
  let len := buf.length
  let targetIp := if dstIp ≠ 0 then dstIp else s.remoteIp
  let targetPort := if dstPort ≠ 0 then dstPort else s.remotePort
  if len = 0 then .ret (u, s, 0)
  else if s.type = sockStream then
    if s.tcpState ≠ .established then .ret (u, s, -1) else sendLoop len (len + 1) u s buf
  else if s.type = sockDgram then
    match u.dev with
    | none => .ret (u, s, -1)
    | some dev => do
        let packet ← fill 1500 [] (udpHeader s.localPort targetPort ((8 + len % 65536) % 65536))
        let packet ← fill 1500 packet (buf.take 1472)
        let (v, r) ← u.ipv4Send dev targetIp ipprotoUdp packet ((8 + len % 65536) % 65536)
        .ret (v, s, if r = 0 then int32 len else -1)
  else if s.type = sockRaw then
    match u.dev with
    | none => .ret (u, s, -1)
    | some dev => do
        let proto := if s.protocol ≠ 0 then s.protocol % 256 else ipprotoIcmp
        let (v, r) ← u.ipv4Send dev targetIp proto buf (len % 65536)
        .ret (v, s, if r = 0 then int32 len else -1)
  else .ret (u, s, -1)

/-! ## One call -/

/-- Does the call of this number get through? -/
def passes (u : Uplink) (dev : NetConfig) (k dstIp : Nat) : Bool :=
  (u.resolve k (nextHop dev dstIp)).isSome && u.accepts k

/-- Does the next call get through, with a payload of this length? -/
def through (u : Uplink) (dev : NetConfig) (dstIp len : Nat) : Bool := len ≤ 1480 ∧ u.passes dev u.calls.length dstIp

/-- The uplink behind a call. -/
def called (u : Uplink) (dev : NetConfig) (dstIp proto : Nat) (payload : List UInt8) (sent : Bool) : Uplink :=
  { u with
    calls := u.calls ++ [⟨dstIp, proto, payload, if sent then 0 else -1⟩]
    frames := u.frames ++
      if sent then (LiteBSD.ipv4Send dev (u.resolve u.calls.length) (u.ids u.calls.length) dstIp proto payload).toList
      else [] }

section Calls

variable {u : Uplink} {dev : NetConfig} {dstIp proto len : Nat} {payload : List UInt8} {s : Socket}

theorem udpHeader_length (srcPort dstPort len : Nat) : (udpHeader srcPort dstPort len).length = 8 := rfl

theorem ethernetSend_eq {dstMac : Mac} {ethertype : Nat} (hlen : len ≤ 1500) (hload : len ≤ payload.length) :
    u.ethernetSend dev dstMac ethertype payload len =
      if u.accepts u.calls.length then
        .ret ({ u with frames := u.frames ++ (LiteBSD.ethernetSend dev dstMac ethertype (payload.take len)).toList }, 0)
      else .ret (u, -1) := by
  have hheader : (dstMac.bytes ++ dev.mac.bytes ++ putBe16 ethertype).length = 14 := by
    rw [List.length_append, List.length_append, dstMac.six, dev.mac.six, putBe16_length]
  have htake : (payload.take len).length = len := List.length_take_of_le hload
  have hframe : LiteBSD.ethernetSend dev dstMac ethertype (payload.take len) =
      some (dstMac.bytes ++ dev.mac.bytes ++ putBe16 ethertype ++ payload.take len) := by
    rw [LiteBSD.ethernetSend, if_neg (by omega)]
  rw [ethernetSend, if_neg (Nat.not_lt.mpr hlen), fill_eq (by rw [List.length_nil]; omega), Exec.ret_bind, load_eq hload,
    Exec.ret_bind, List.nil_append, fill_eq (by omega), Exec.ret_bind, hframe]
  rfl

/-- A call gets through, or it does not; no array is too small for what is
handed to it. -/
theorem ipv4Send_eq (hload : len ≤ 1480 → len ≤ payload.length) :
    u.ipv4Send dev dstIp proto payload len =
      .ret (u.called dev dstIp proto (payload.take len) (u.through dev dstIp len),
        if u.through dev dstIp len then 0 else -1) := by
  unfold ipv4Send ipv4Route through
  by_cases hlen : len ≤ 1480
  · rw [if_neg (Nat.not_lt.mpr hlen)]
    cases hhop : u.resolve u.calls.length (nextHop dev dstIp) with
    | none =>
        have hno : u.passes dev u.calls.length dstIp = false := by rw [passes, hhop]; rfl
        simp [hno, called, Exec.ret_bind]
    | some nextMac =>
        have hpass : u.passes dev u.calls.length dstIp = u.accepts u.calls.length := by
          rw [passes, hhop]
          rfl
        have htake : (payload.take len).length = len := List.length_take_of_le (hload hlen)
        have hwhole : ∀ sum, (ipHeader dev (u.ids u.calls.length) dstIp proto len sum ++ payload.take len).take (20 + len) =
            ipHeader dev (u.ids u.calls.length) dstIp proto len sum ++ payload.take len := fun sum =>
          List.take_of_length_le (by rw [List.length_append, ipHeader_length, htake])
        have hframe : LiteBSD.ipv4Send dev (u.resolve u.calls.length) (u.ids u.calls.length) dstIp proto
            (payload.take len) = LiteBSD.ethernetSend dev nextMac ethertypeIpv4
              (ipHeader dev (u.ids u.calls.length) dstIp proto len
                (netChecksum (ipHeader dev (u.ids u.calls.length) dstIp proto len 0)) ++ payload.take len) := by
          rw [LiteBSD.ipv4Send, htake, if_neg (Nat.not_lt.mpr hlen), hhop]
        dsimp only
        rw [fill_eq (by rw [ipHeader_length, List.length_nil]; omega), Exec.ret_bind, load_eq (hload hlen), Exec.ret_bind,
          List.nil_append, fill_eq (by rw [ipHeader_length]; omega), Exec.ret_bind, ethernetSend_eq (by omega)
          (by rw [List.length_append, ipHeader_length]; omega), hpass, hwhole, ← hframe]
        cases hacc : u.accepts u.calls.length with
        | false => simp [called, Exec.ret_bind]
        | true => simp [hlen, called, Exec.ret_bind]
  · rw [if_pos (Nat.lt_of_not_le hlen)]
    simp [hlen, called, Exec.ret_bind]

/-- Is there a device, and does the call of this number get through on it? -/
def opens (u : Uplink) (k dstIp : Nat) : Bool := u.dev.any fun dev => u.passes dev k dstIp

theorem opens_none (hdev : u.dev = none) (k : Nat) : u.opens k dstIp = false := by
  rw [opens, hdev, Option.any_none]

/-- The calls that got through. -/
def sent (u : Uplink) : List Ipv4Call := u.calls.filter fun c => c.result = 0

theorem sent_called (ok : Bool) :
    (u.called dev dstIp proto payload ok).sent = u.sent ++ if ok then [⟨dstIp, proto, payload, 0⟩] else [] := by
  cases ok <;> simp [sent, called]

theorem chunk_eq (n : Nat) : (if n > 1460 then 1460 else n % 65536) = min 1460 n := by
  split
  · omega
  · rw [Nat.mod_eq_of_lt (by omega)]
    omega

/-- A segment of at most 1460 bytes fits into every array on its way. -/
theorem tcpSendPacket_eq {flags : Nat} (hdev : u.dev = some dev) (hlen : len ≤ 1460) (hload : len ≤ payload.length) :
    ∃ sum, u.tcpSendPacket s flags payload len =
      .ret (u.called dev s.remoteIp ipprotoTcp (tcpSegment s flags sum (payload.take len)) (u.opens u.calls.length s.remoteIp),
        u.meanwhile s, if u.opens u.calls.length s.remoteIp then 0 else -1) := by
  have htake : (payload.take len).length = len := List.length_take_of_le hload
  have hthrough : u.through dev s.remoteIp (20 + len) = u.opens u.calls.length s.remoteIp := by
    have hfits : 20 + len ≤ 1480 := by omega
    simp [through, opens, hdev, hfits]
  have htotal : (20 + len) % 65536 = 20 + len := Nat.mod_eq_of_lt (by omega)
  refine ⟨tcpChecksum dev.ip s.remoteIp (tcpSegment s flags 0 [] ++ payload.take len), ?_⟩
  have hsegment : ∀ sum, (tcpSegment s flags sum (payload.take len)).take (20 + len) =
      tcpSegment s flags sum (payload.take len) := fun sum =>
    List.take_of_length_le (by rw [tcpSegment_length, htake])
  unfold tcpSendPacket
  rw [hdev]
  dsimp only
  rw [load_eq hload, Exec.ret_bind, fill_eq (by rw [tcpSegment_length, List.length_nil]; omega), Exec.ret_bind, htotal,
    ipv4Send_eq fun _ => by rw [tcpSegment_length, htake], Exec.ret_bind, hsegment, hthrough]

end Calls

end Uplink

/-- A card that takes every frame, in a network that answers. -/
def openUplink : Uplink where
  dev := some e1000Device
  resolve _ _ := some e1000Device.mac
  accepts _ := true
  arrives _ := []
  ids k := 1000 + k
  calls := []
  frames := []

end LiteBSD
