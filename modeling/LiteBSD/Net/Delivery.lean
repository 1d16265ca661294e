/-
# `LiteBSD.Net.Delivery` — what was sent is what the sockets get

A frame that `ipv4_send` has made comes to another machine, with whatever the
card has put behind it: short frames are filled up to 60 bytes, and the length
in the IP header says where the packet ends.  `ethernet_rx` takes it apart
again.  Here the two meet: the receive path hands the sockets the message that
was sent, under the address of the machine it was sent from
(`ethernetRx_sent`), and a datagram or a segment has its ports, its numbers and
its bytes (`messageInput_datagram`, `messageInput_segment`).

`ethernet_rx` has no look at the address the packet is for.
-/
import LiteBSD.Net.Uplink
import LiteBSD.Net.Wire
import LiteBSD.Lib.Memory

namespace LiteBSD

open Lib

/-! ## Fields, read back -/

section Fields

variable {m m' : Nat → UInt8} {off off' len x : Nat} {bytes : List UInt8}

theorem slice_of_holds (h : HoldsAt m off bytes) : slice m off bytes.length = bytes := by
  refine List.ext_getElem (length_slice _ _ _) fun i hi hi' => ?_
  have hcell := h i hi'
  rw [List.getElem?_eq_getElem hi'] at hcell
  simp only [slice, List.getElem_map, List.getElem_range]
  exact (Option.some.inj hcell).symm

theorem be16_of_holds (h : HoldsAt m off (putBe16 x)) : be16 m off = x % 65536 := by
  simp only [putBe16, holdsAt_cons] at h
  simp only [be16, byteAt, h.1, h.2.1, UInt8.toNat_ofNat']
  omega

theorem be32_of_holds (h : HoldsAt m off (putBe32 x)) : be32 m off = x % 4294967296 := by
  obtain ⟨hhigh, hlow⟩ := holdsAt_append.mp h
  rw [be32, be16_of_holds hhigh, show off + 2 = off + (putBe16 (x / 65536)).length from rfl, be16_of_holds hlow]
  omega

theorem le32_of_holds (h : HoldsAt m off (putLe32 x)) : le32 m off = x % 4294967296 := by
  simp only [putLe32, putLe16, List.cons_append, List.nil_append, holdsAt_cons] at h
  obtain ⟨h0, h1, h2, h3, -⟩ := h
  simp only [le32, byteAt, h0, h1, h2, h3, UInt8.toNat_ofNat']
  omega

end Fields

/-! ## What the sockets are handed -/

/-- A call of `socket_icmp_input`, `socket_udp_input` or `socket_tcp_input`. -/
inductive Input where
  | icmp (srcIp : Nat) (header payload : List UInt8)
  | udp (srcIp srcPort dstPort : Nat) (payload : List UInt8)
  | tcp (seg : Segment)
deriving DecidableEq, Repr

def Input.apply (n : Net) : Input → Net
  | icmp srcIp header payload => socketIcmpInput n srcIp header payload
  | udp srcIp srcPort dstPort payload => socketUdpInput n srcIp srcPort dstPort payload
  | tcp seg => socketTcpInput n seg

/-- An echo request is shortened to the buffer for the reply. -/
def icmpLen (m : Nat → UInt8) (off len : Nat) : Nat := if byteAt m off = 8 ∧ len > 1500 then 1500 else len

/-- What the message of `len` bytes at `off` comes to. -/
def transport (m : Nat → UInt8) (srcIp proto off len : Nat) : Option Input :=
  if proto = ipprotoIcmp then
    if len < 8 then none
    else some (.icmp srcIp (slice m off 2 ++ [0, 0] ++ slice m (off + 4) 4) (slice m (off + 8) (icmpLen m off len - 8)))
  else if proto = ipprotoUdp then
    if len < 8 then none
    else
      let udpLen := be16 m (off + 4)
      let udpLen := if udpLen > len then len else udpLen
      let dataLen := if udpLen ≥ 8 then udpLen - 8 else 0
      some (.udp srcIp (be16 m off) (be16 m (off + 2)) (slice m (off + 8) dataLen))
  else if proto = ipprotoTcp then
    if len < 20 then none
    else
      let hdrLen := tcpHdrLen m off
      if hdrLen ≥ 20 ∧ len ≥ hdrLen then some (.tcp (segmentAt m srcIp off hdrLen (len - hdrLen))) else none
  else none

/-- An echo request is answered before the sockets get it. -/
def answered (st : Stack) (m : Nat → UInt8) (srcIp proto off len : Nat) : Stack :=
  if proto = ipprotoIcmp ∧ 8 ≤ len then (icmpEcho st m srcIp off len).1 else st

/-- The sockets behind the message. -/
def handed (st : Stack) (m : Nat → UInt8) (srcIp proto off len : Nat) : Stack :=
  let st := answered st m srcIp proto off len
  { st with net := ((transport m srcIp proto off len).map (Input.apply st.net)).getD st.net }

/-- A header that `ipv4_rx` takes, of a packet that ends where the header says. -/
structure HeaderOk (m : Nat → UInt8) (off len : Nat) : Prop where
  long : 20 ≤ len
  version : ipVersion m off = 4
  ihl : 20 ≤ ipIhl m off
  fits : ipIhl m off ≤ len

section Handed

variable {st : Stack} {m : Nat → UInt8} {srcIp off len : Nat}

theorem icmpRx_handed : (icmpRx st m srcIp off len).1 = handed st m srcIp ipprotoIcmp off len := by
  unfold icmpRx handed transport answered
  by_cases hshort : len < 8
  · rw [if_pos hshort, if_pos rfl, if_pos hshort, if_neg fun h => Nat.not_lt.mpr h.2 hshort]
    rfl
  · rw [if_neg hshort, if_pos rfl, if_neg hshort, if_pos ⟨rfl, Nat.le_of_not_lt hshort⟩]
    have hlen : (icmpEcho st m srcIp off len).2.1 = icmpLen m off len := by
      unfold icmpEcho icmpLen
      by_cases hecho : byteAt m off = 8
      · rw [if_pos hecho]
        simp only [hecho, true_and]
      · rw [if_neg hecho, if_neg fun h => hecho h.1]
    rw [← hlen]
    rfl

theorem udpRx_handed : (udpRx st m srcIp off len).1 = handed st m srcIp ipprotoUdp off len := by
  have hicmp : ipprotoUdp ≠ ipprotoIcmp := by decide
  have hstill : answered st m srcIp ipprotoUdp off len = st := if_neg fun h => hicmp h.1
  unfold handed
  rw [hstill]
  unfold udpRx transport
  rw [if_neg hicmp, if_pos rfl]
  by_cases hshort : len < 8
  · rw [if_pos hshort, if_pos hshort]
    rfl
  · rw [if_neg hshort, if_neg hshort]
    rfl

theorem tcpRx_handed : (tcpRx st m srcIp off len).1 = handed st m srcIp ipprotoTcp off len := by
  have hicmp : ipprotoTcp ≠ ipprotoIcmp := by decide
  have hudp : ipprotoTcp ≠ ipprotoUdp := by decide
  have hstill : answered st m srcIp ipprotoTcp off len = st := if_neg fun h => hicmp h.1
  unfold handed
  rw [hstill]
  unfold tcpRx transport
  rw [if_neg hicmp, if_neg hudp, if_pos rfl]
  by_cases hshort : len < 20
  · rw [if_pos hshort, if_pos hshort]
    rfl
  · rw [if_neg hshort, if_neg hshort]
    dsimp only
    split
    · rfl
    · rfl

theorem handed_fst (rx : Stack × List Stretch) (reads : List Stretch) :
    (match rx with | (st, r) => (st, reads ++ r)).1 = rx.1 := rfl

theorem handed_fst_cons (rx : Stack × List Stretch) (reads : List Stretch) (x : Stretch) :
    (match rx with | (st, r) => (st, reads ++ x :: r)).1 = rx.1 := rfl

/-- `ipv4_rx` hands on what is behind the header. -/
theorem ipv4Rx_handed (h : HeaderOk m off len) :
    (ipv4Rx st m off len).1 = handed st m (le32 m (off + 12)) (byteAt m (off + 9)) (off + ipIhl m off)
      (sub16 (if be16 m (off + 2) > len then len else be16 m (off + 2)) (ipIhl m off)) := by
  have htaken : ¬(ipVersion m off ≠ 4 ∨ ipIhl m off < 20 ∨ len < ipIhl m off) := by
    have := h.version
    have := h.ihl
    have := h.fits
    omega
  unfold ipv4Rx
  rw [if_neg (Nat.not_lt.mpr h.long)]
  extract_lets ihl totalLen cut payloadLen payload srcIp proto reads
  rw [if_neg htaken]
  split
  · rename_i hproto
    rw [handed_fst_cons, icmpRx_handed, ← hproto]
  split
  · rename_i hproto
    rw [handed_fst, udpRx_handed, ← hproto]
  split
  · rename_i hproto
    rw [handed_fst, tcpRx_handed, ← hproto]
  · rename_i hicmp hudp htcp
    unfold handed transport answered
    rw [if_neg fun h => hicmp h.1, if_neg hicmp, if_neg hudp, if_neg htcp]
    rfl

end Handed

/-! ## The message alone -/

/-- The same bytes, in two memories. -/
def SameBytes (m : Nat → UInt8) (off : Nat) (m' : Nat → UInt8) (off' len : Nat) : Prop :=
  ∀ k < len, m (off + k) = m' (off' + k)

/-- A text as a memory. -/
def textMem (text : List UInt8) : Nat → UInt8 := fun k => text.getD k 0

/-- What the sockets get of a message. -/
def messageInput (srcIp proto : Nat) (message : List UInt8) : Option Input :=
  transport (textMem message) srcIp proto 0 message.length

section Message

variable {m m' : Nat → UInt8} {srcIp proto off off' len k n : Nat} {message : List UInt8}

namespace SameBytes

theorem of_holds (h : HoldsAt m off message) : SameBytes m off (textMem message) 0 message.length := by
  intro k hk
  have hcell := h k hk
  rw [Nat.zero_add, textMem, List.getD_eq_getElem?_getD, hcell]
  rfl

theorem be16 (h : SameBytes m off m' off' len) (hk : k + 2 ≤ len) :
    LiteBSD.be16 m (off + k) = LiteBSD.be16 m' (off' + k) := by
  unfold LiteBSD.be16 byteAt
  rw [h k (by omega), Nat.add_assoc, Nat.add_assoc, h (k + 1) (by omega)]

theorem be32 (h : SameBytes m off m' off' len) (hk : k + 4 ≤ len) :
    LiteBSD.be32 m (off + k) = LiteBSD.be32 m' (off' + k) := by
  unfold LiteBSD.be32
  rw [h.be16 (by omega), Nat.add_assoc, Nat.add_assoc, h.be16 (by omega)]

theorem byteAt (h : SameBytes m off m' off' len) (hk : k < len) :
    LiteBSD.byteAt m (off + k) = LiteBSD.byteAt m' (off' + k) := congrArg UInt8.toNat (h k hk)

theorem slice (h : SameBytes m off m' off' len) (hk : k + n ≤ len) :
    LiteBSD.slice m (off + k) n = LiteBSD.slice m' (off' + k) n := by
  refine List.map_congr_left fun i hi => ?_
  have hin := List.mem_range.mp hi
  rw [Nat.add_assoc, Nat.add_assoc]
  exact h (k + i) (by omega)

/-- What a message comes to depends on its bytes. -/
theorem transport (h : SameBytes m off m' off' len) :
    LiteBSD.transport m srcIp proto off len = LiteBSD.transport m' srcIp proto off' len := by
  unfold LiteBSD.transport
  split
  · split
    · rfl
    · have htype : LiteBSD.byteAt m off = LiteBSD.byteAt m' off' := h.byteAt (k := 0) (by omega)
      have hlen : icmpLen m off len = icmpLen m' off' len := by rw [icmpLen, icmpLen, htype]
      have hle : icmpLen m' off' len ≤ len := by
        unfold icmpLen
        split <;> omega
      have hhead : LiteBSD.slice m off 2 = LiteBSD.slice m' off' 2 := h.slice (k := 0) (by omega)
      rw [hlen, hhead, h.slice (k := 4) (n := 4) (by omega), h.slice (k := 8) (by omega)]
  split
  · split
    · rfl
    · have hsrc : LiteBSD.be16 m off = LiteBSD.be16 m' off' := h.be16 (k := 0) (by omega)
      rw [hsrc, h.be16 (k := 2) (by omega), h.be16 (k := 4) (by omega)]
      dsimp only
      rw [h.slice (k := 8)]
      split <;> split <;> omega
  split
  · split
    · rfl
    · have hhdr : tcpHdrLen m off = tcpHdrLen m' off' := by rw [tcpHdrLen, tcpHdrLen, h.byteAt (by omega)]
      rw [hhdr]
      dsimp only
      split
      · have hsrc : LiteBSD.be16 m off = LiteBSD.be16 m' off' := h.be16 (k := 0) (by omega)
        unfold segmentAt
        rw [hsrc, h.be16 (k := 2) (by omega), h.be32 (k := 4) (by omega), h.be32 (k := 8) (by omega),
          h.byteAt (k := 13) (by omega), h.be16 (k := 14) (by omega), h.slice (by omega)]
      · rfl
  · rfl

end SameBytes

theorem transport_message (h : HoldsAt m off message) :
    transport m srcIp proto off message.length = messageInput srcIp proto message :=
  (SameBytes.of_holds h).transport

end Message

/-! ## A frame that was sent -/

section Sent

variable {dev : NetConfig} {resolve : Nat → Option Mac} {m : Nat → UInt8} {mac : Mac} {ipId dstIp proto off len : Nat}
  {frame packet payload : List UInt8}

/-- The frame of a packet. -/
theorem ipv4Send_some (h : ipv4Send dev resolve ipId dstIp proto payload = some frame) :
    payload.length ≤ 1480 ∧ ∃ mac, resolve (nextHop dev dstIp) = some mac ∧
      frame = mac.bytes ++ dev.mac.bytes ++ putBe16 ethertypeIpv4 ++
        (ipHeader dev ipId dstIp proto payload.length (netChecksum (ipHeader dev ipId dstIp proto payload.length 0)) ++
          payload) := by
  unfold ipv4Send at h
  split at h
  · cases h
  rename_i hlong
  split at h
  · cases h
  · rename_i mac hmac
    unfold ethernetSend at h
    dsimp only at h
    split at h
    · cases h
    · exact ⟨Nat.le_of_not_lt hlong, mac, hmac, (Option.some.inj h).symm⟩

/-- What `ethernet_rx` finds in a frame of `ethernet_send`. -/
theorem ethernet_fields {ethertype : Nat}
    (h : HoldsAt m 0 (mac.bytes ++ dev.mac.bytes ++ putBe16 ethertype ++ packet)) :
    be16 m 12 = ethertype % 65536 ∧ HoldsAt m 14 packet := by
  obtain ⟨hheader, hpacket⟩ := holdsAt_append.mp h
  obtain ⟨hmacs, htype⟩ := holdsAt_append.mp hheader
  have hlen : (mac.bytes ++ dev.mac.bytes).length = 12 := by rw [List.length_append, mac.six, dev.mac.six]
  rw [hlen] at htype
  rw [List.length_append, hlen, putBe16_length] at hpacket
  exact ⟨be16_of_holds htype, hpacket⟩

/-- What `ipv4_rx` finds in a header of `ipv4_send`. -/
structure HeaderFields (m : Nat → UInt8) (off srcIp proto total : Nat) : Prop where
  version : ipVersion m off = 4
  ihl : ipIhl m off = 20
  total : be16 m (off + 2) = total
  proto : byteAt m (off + 9) = proto
  srcIp : le32 m (off + 12) = srcIp

theorem ipHeader_fields {sum : Nat} (h : HoldsAt m off (ipHeader dev ipId dstIp proto len sum)) :
    HeaderFields m off (u32 dev.ip) (proto % 256) ((20 + len) % 65536) := by
  simp only [ipHeader, holdsAt_append, holdsAt_cons, List.length_append, List.length_cons, List.length_nil,
    putBe16_length, putLe16_length, putLe32_length] at h
  obtain ⟨⟨⟨⟨⟨⟨⟨hfirst, -⟩, htotal⟩, -⟩, -, -, -, hproto, -⟩, -⟩, hsrc⟩, -⟩ := h
  refine ⟨?_, ?_, be16_of_holds htotal, ?_, le32_of_holds hsrc⟩
  · rw [ipVersion, byteAt, hfirst]
    rfl
  · rw [ipIhl, byteAt, hfirst]
    rfl
  · show (m (off + 9)).toNat = _
    rw [show off + 9 = off + (0 + 1 + 1 + 2 + 2) + 1 + 1 + 1 from rfl, hproto]
    exact UInt8.toNat_ofNat'

/-- The sockets get the message behind the header, however long the frame has
become on the way. -/
theorem ipv4Rx_sent (st : Stack) {sum : Nat} (hpayload : payload.length ≤ 1480) (hlen : 20 + payload.length ≤ len)
    (h : HoldsAt m off (ipHeader dev ipId dstIp proto payload.length sum ++ payload)) :
    (ipv4Rx st m off len).1 = handed st m (u32 dev.ip) (proto % 256) (off + 20) payload.length := by
  obtain ⟨hheader, -⟩ := holdsAt_append.mp h
  have hf := ipHeader_fields hheader
  have hok : HeaderOk m off len := by
    refine ⟨by omega, hf.version, ?_, ?_⟩
    · rw [hf.ihl]
    · rw [hf.ihl]
      omega
  rw [ipv4Rx_handed hok, hf.ihl, hf.proto, hf.srcIp, hf.total]
  have htotal : (if (20 + payload.length) % 65536 > len then len else (20 + payload.length) % 65536) =
      20 + payload.length := by
    split <;> omega
  rw [htotal]
  have hrest : sub16 (20 + payload.length) 20 = payload.length := by
    unfold sub16
    omega
  rw [hrest]

theorem ethernetRx_sent (st : Stack) (h : ipv4Send dev resolve ipId dstIp proto payload = some frame)
    (hm : HoldsAt m 0 frame) (hlen : frame.length ≤ len) :
    (ethernetRx st m len).1 = handed st m (u32 dev.ip) (proto % 256) 34 payload.length ∧ HoldsAt m 34 payload := by
  obtain ⟨hpayload, mac, -, rfl⟩ := ipv4Send_some h
  obtain ⟨htype, hpacket⟩ := ethernet_fields hm
  have hmessage : HoldsAt m 34 payload := (holdsAt_append.mp hpacket).2
  simp only [List.length_append, mac.six, dev.mac.six, putBe16_length, ipHeader_length] at hlen
  refine ⟨?_, hmessage⟩
  unfold ethernetRx
  rw [if_neg (by omega), htype]
  dsimp only
  rw [if_neg (by decide), if_pos (by decide)]
  exact ipv4Rx_sent st hpayload (by omega) hpacket

end Sent

/-! ## Datagrams and segments -/

section Messages

variable {srcIp srcPort dstPort sum flags : Nat} {data payload message : List UInt8}

theorem textMem_holds (message : List UInt8) : HoldsAt (textMem message) 0 message := by
  intro i hi
  rw [Nat.zero_add, textMem, List.getD_eq_getElem?_getD, List.getElem?_eq_getElem hi]
  rfl

theorem messageInput_datagram (h : 8 + data.length < 65536) :
    messageInput srcIp ipprotoUdp (Uplink.udpHeader srcPort dstPort (8 + data.length) ++ data) =
      some (.udp srcIp (srcPort % 65536) (dstPort % 65536) data) := by
  have hholds := textMem_holds (Uplink.udpHeader srcPort dstPort (8 + data.length) ++ data)
  have hlen : (Uplink.udpHeader srcPort dstPort (8 + data.length) ++ data).length = 8 + data.length := by
    rw [List.length_append, Uplink.udpHeader_length]
  rw [messageInput, hlen]
  generalize textMem _ = m at hholds ⊢
  obtain ⟨hheader, hdata⟩ := holdsAt_append.mp hholds
  simp only [Uplink.udpHeader, holdsAt_append] at hheader
  obtain ⟨⟨⟨hsrc, hdst⟩, htotal⟩, -⟩ := hheader
  have htotal : be16 m (0 + 4) = 8 + data.length := (be16_of_holds htotal).trans (Nat.mod_eq_of_lt h)
  have hdata : slice m (0 + 8) data.length = data := slice_of_holds hdata
  unfold transport
  rw [if_neg (by decide), if_pos rfl, if_neg (by omega), be16_of_holds hsrc, htotal]
  dsimp only
  rw [if_neg (Nat.lt_irrefl _), if_pos (by omega), Nat.add_sub_cancel_left, hdata,
    show be16 m (0 + 2) = _ from be16_of_holds hdst]

/-- The segment as the receiver sees it. -/
def segmentOf (srcIp : Nat) (s : Socket) (flags : Nat) (payload : List UInt8) : Segment where
  srcIp := srcIp
  srcPort := s.localPort % 65536
  dstPort := s.remotePort % 65536
  seq := u32 s.localSeq
  ack := if flags &&& tcpFlagAck ≠ 0 then u32 s.remoteSeq else 0
  flags := flags % 256
  window := 65535
  payload := payload

theorem messageInput_segment (s : Socket) :
    messageInput srcIp ipprotoTcp (tcpSegment s flags sum payload) = some (.tcp (segmentOf srcIp s flags payload)) := by
  have hholds := textMem_holds (tcpSegment s flags sum payload)
  have hlen := tcpSegment_length s flags sum payload
  rw [messageInput, hlen]
  generalize textMem _ = m at hholds ⊢
  simp only [tcpSegment, holdsAt_append, holdsAt_cons, List.length_append, List.length_cons, List.length_nil,
    putBe16_length, putBe32_length, putLe16_length] at hholds
  obtain ⟨⟨⟨⟨⟨⟨⟨⟨hsrc, hdst⟩, hseq⟩, hack⟩, hoffset, hflags, -⟩, hwindow⟩, -⟩, -⟩, hpayload⟩ := hholds
  have hhdr : tcpHdrLen m 0 = 20 := by
    show (m 12).toNat / 16 * 4 = 20
    rw [show m 12 = 80 from hoffset]
    rfl
  unfold transport
  rw [if_neg (by decide), if_neg (by decide), if_pos rfl, if_neg (by omega), hhdr]
  dsimp only
  rw [if_pos ⟨Nat.le_refl _, Nat.le_add_right _ _⟩, Nat.add_sub_cancel_left]
  have hack' : be32 m 8 = if flags &&& tcpFlagAck ≠ 0 then u32 s.remoteSeq else 0 := by
    refine (be32_of_holds hack).trans ?_
    split
    · rfl
    · rfl
  have hflags' : byteAt m 13 = flags % 256 := by
    rw [byteAt, show m 13 = UInt8.ofNat flags from hflags]
    exact UInt8.toNat_ofNat'
  unfold segmentAt segmentOf
  rw [be16_of_holds hsrc, show be16 m (0 + 2) = _ from be16_of_holds hdst, show be32 m (0 + 4) = _ from be32_of_holds hseq,
    show be32 m (0 + 8) = _ from hack', show byteAt m (0 + 13) = _ from hflags',
    show be16 m (0 + 14) = _ from be16_of_holds hwindow, show slice m (0 + 20) payload.length = _ from slice_of_holds hpayload]
  rfl

end Messages

end LiteBSD
