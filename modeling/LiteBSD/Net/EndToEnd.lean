/-
# `LiteBSD.Net.EndToEnd` — from `sock_sendto` to `sock_recvfrom`

Both ends of a connection, and all that lies between them: the loop that cuts
the buffer into segments, the arrays the packets are built in, the frames, the
receive path of the other machine, its ring, and the program that reads.

The frames may be lost from some point on, but come in the order in which they
were sent and once each: the receiver does not look at their numbers.  As long
as each fits the ring, what the program has read is a prefix of what the call
has sent, and when all frames have come and the ring is empty it is the whole
of it (`stream_end_to_end`).  A datagram that the call reports as sent gets to
the socket that waits at its port, as it was (`datagram_end_to_end`).
-/
import LiteBSD.Net.Delivery
import LiteBSD.Net.Demux
import LiteBSD.Net.Queues
import LiteBSD.Net.Stream

namespace LiteBSD

open Lib

/-- Whichever machine gets the frame hands its sockets the input. -/
def Delivers (frame : List UInt8) (x : Input) : Prop :=
  ∀ (st : Stack) (m : Nat → UInt8) (len : Nat), HoldsAt m 0 frame → frame.length ≤ len →
    (ethernetRx st m len).1 = { st with net := x.apply st.net }

section Frames

variable {dev : NetConfig} {resolve : Nat → Option Mac} {u : Uplink} {ipId dstIp proto k : Nat}
  {frame payload : List UInt8}

theorem delivers_of_sent {x : Input} (h : ipv4Send dev resolve ipId dstIp proto payload = some frame)
    (hproto : proto % 256 ≠ ipprotoIcmp) (hx : messageInput (u32 dev.ip) (proto % 256) payload = some x) :
    Delivers frame x := by
  intro st m len hm hlen
  obtain ⟨hrun, hmessage⟩ := ethernetRx_sent st h hm hlen
  rw [hrun, handed, answered, if_neg fun hecho => hproto hecho.1, transport_message hmessage, hx]
  rfl

/-- What gets through is a frame. -/
theorem ipv4Send_passes (hpass : u.passes dev k dstIp = true) (hlen : payload.length ≤ 1480) (ipId : Nat) :
    ∃ frame, ipv4Send dev (u.resolve k) ipId dstIp proto payload = some frame := by
  have hhop : (u.resolve k (nextHop dev dstIp)).isSome = true := (Bool.and_eq_true_iff.mp hpass).1
  obtain ⟨mac, hmac⟩ := Option.isSome_iff_exists.mp hhop
  unfold ipv4Send
  rw [if_neg (Nat.not_lt.mpr hlen), hmac]
  dsimp only
  unfold ethernetSend
  rw [List.length_append, ipHeader_length, if_neg (by omega)]
  exact ⟨_, rfl⟩

end Frames

/-! ## A datagram -/

section Datagram

variable {u v : Uplink} {dev : NetConfig} {s s' : Socket} {buf : List UInt8} {dstIp dstPort : Nat} {r : Int}

/-- A datagram that fits is handed on whole. -/
theorem sockSendto_dgram (hdev : u.dev = some dev) (htype : s.type = sockDgram) (hne : buf ≠ [])
    (hfits : buf.length ≤ 1472) : u.sockSendto s buf dstIp dstPort =
      .ret (u.called dev (targetIp s dstIp) ipprotoUdp
          (Uplink.udpHeader s.localPort (targetPort s dstPort) (8 + buf.length) ++ buf)
          (u.passes dev u.calls.length (targetIp s dstIp)),
        s, if u.passes dev u.calls.length (targetIp s dstIp) then (buf.length : Int) else -1) := by
  have hlen : buf.length ≠ 0 := fun h0 => hne (List.length_eq_zero_iff.mp h0)
  have hstream : s.type ≠ sockStream := by rw [htype]; decide
  have htotal : (8 + buf.length % 65536) % 65536 = 8 + buf.length := by omega
  have htake : buf.take 1472 = buf := List.take_of_length_le hfits
  have hwhole : (Uplink.udpHeader s.localPort (targetPort s dstPort) (8 + buf.length) ++ buf).length = 8 + buf.length := by
    rw [List.length_append, Uplink.udpHeader_length]
  have hthrough : u.through dev (targetIp s dstIp) (8 + buf.length) =
      u.passes dev u.calls.length (targetIp s dstIp) := by
    have hsmall : 8 + buf.length ≤ 1480 := by omega
    simp [Uplink.through, hsmall]
  have hsend := @Uplink.ipv4Send_eq u dev (targetIp s dstIp) ipprotoUdp (8 + buf.length)
    (Uplink.udpHeader s.localPort (targetPort s dstPort) (8 + buf.length) ++ buf) fun _ => Nat.le_of_eq hwhole.symm
  rw [List.take_of_length_le (Nat.le_of_eq hwhole), hthrough] at hsend
  unfold Uplink.sockSendto
  dsimp only
  rw [if_neg hlen, if_neg hstream, if_pos htype, hdev]
  dsimp only
  rw [htotal, htake, fill_eq (by rw [Uplink.udpHeader_length]; decide), Exec.ret_bind, List.nil_append,
    fill_eq (by rw [Uplink.udpHeader_length]; omega), Exec.ret_bind]
  show (u.ipv4Send dev (targetIp s dstIp) ipprotoUdp
    (Uplink.udpHeader s.localPort (targetPort s dstPort) (8 + buf.length) ++ buf) (8 + buf.length) >>= _) = _
  rw [hsend, Exec.ret_bind]
  cases u.passes dev u.calls.length (targetIp s dstIp) with
  | false => rfl
  | true => exact congrArg (fun r => Exec.ret (_, s, r)) (int32_of_lt (by omega))

/-- **A datagram that is reported as sent arrives as it was.**  The call has put
one frame on the wire, and every machine that gets it hands the bytes to the
socket at the port, with the address and the port of the sender. -/
theorem datagram_end_to_end (hdev : u.dev = some dev) (htype : s.type = sockDgram) (hne : buf ≠ [])
    (hfits : buf.length ≤ 1472) (hsend : u.sockSendto s buf dstIp dstPort = .ret (v, s', r)) (hr : 0 ≤ r) :
    r = buf.length ∧ ∃ frame, v.frames = u.frames ++ [frame] ∧
      Delivers frame (.udp (u32 dev.ip) (s.localPort % 65536) (targetPort s dstPort % 65536) buf) := by
  rw [sockSendto_dgram hdev htype hne hfits] at hsend
  cases hsend
  cases hpass : u.passes dev u.calls.length (targetIp s dstIp) with
  | false =>
      rw [hpass, if_neg Bool.false_ne_true] at hr
      exact absurd hr (by decide)
  | true =>
      have hlen : (Uplink.udpHeader s.localPort (targetPort s dstPort) (8 + buf.length) ++ buf).length ≤ 1480 := by
        rw [List.length_append, Uplink.udpHeader_length]
        omega
      obtain ⟨frame, hframe⟩ := @ipv4Send_passes dev u _ ipprotoUdp _ _ hpass hlen (u.ids u.calls.length)
      refine ⟨rfl, frame, ?_, delivers_of_sent hframe (by decide) (messageInput_datagram (by omega))⟩
      rw [Uplink.called, hframe]
      rfl

/-- Three bytes for a name server arrive. -/
theorem question_arrives : ∃ v s' r frame, openUplink.sockSendto dnsSocket [1, 2, 3] 0 0 = .ret (v, s', r) ∧ r = 3 ∧
    v.frames = [frame] ∧ Delivers frame (.udp 0x0F02000A 49153 53 [1, 2, 3]) := by
  have hsend := @sockSendto_dgram openUplink e1000Device dnsSocket [1, 2, 3] 0 0 rfl rfl (by decide) (by decide)
  obtain ⟨hr, frame, hframes, hdelivers⟩ :=
    datagram_end_to_end (u := openUplink) rfl rfl (by decide) (by decide) hsend (by decide)
  exact ⟨_, _, _, frame, hsend, hr, hframes, hdelivers⟩

end Datagram

/-! ## The segments of a stream -/

/-- The two ends of the connection are the same. -/
structure SameEnds (s t : Socket) : Prop where
  localPort : t.localPort = s.localPort
  remotePort : t.remotePort = s.remotePort

/-- The frame carries the segment of the call. -/
structure SegmentFrame (dev : NetConfig) (s : Socket) (frame : List UInt8) (c : Ipv4Call) : Prop where
  segment : ∃ t sum payload, SameEnds s t ∧ c.proto = ipprotoTcp ∧
    c.payload = tcpSegment t (tcpFlagAck ||| tcpFlagPsh) sum payload
  frame : ∃ resolve ipId, ipv4Send dev resolve ipId c.dstIp c.proto c.payload = some frame

/-- The segment that the receiver sees. -/
structure SegmentSeen (dev : NetConfig) (s : Socket) (c : Ipv4Call) (seg : Segment) : Prop where
  srcIp : seg.srcIp = u32 dev.ip
  srcPort : seg.srcPort = s.localPort % 65536
  dstPort : seg.dstPort = s.remotePort % 65536
  flags : seg.flags = tcpFlagAck ||| tcpFlagPsh
  seq : seg.seq = segmentSeq c
  payload : seg.payload = segmentPayload c

section Sending

variable {u v : Uplink} {dev : NetConfig} {s s' t : Socket} {c : Ipv4Call} {frame rest : List UInt8} {len fuel : Nat} {r : Int}

theorem SegmentFrame.delivers (h : SegmentFrame dev s frame c) :
    ∃ seg, Delivers frame (.tcp seg) ∧ SegmentSeen dev s c seg := by
  obtain ⟨t, sum, payload, hends, hproto, hpayload⟩ := h.segment
  obtain ⟨resolve, ipId, hframe⟩ := h.frame
  rw [hproto, hpayload] at hframe
  refine ⟨segmentOf (u32 dev.ip) t (tcpFlagAck ||| tcpFlagPsh) payload,
    delivers_of_sent hframe (by decide) (messageInput_segment t), rfl, ?_, ?_, rfl, ?_, ?_⟩
  · exact congrArg (· % 65536) hends.localPort
  · exact congrArg (· % 65536) hends.remotePort
  · have hseq := @segmentSeq_tcp t payload (tcpFlagAck ||| tcpFlagPsh) sum c.dstIp c.proto c.result
    rw [← hpayload] at hseq
    exact hseq.symm
  · have hdata := @segmentPayload_tcp t payload (tcpFlagAck ||| tcpFlagPsh) sum c.dstIp c.proto c.result
    rw [← hpayload] at hdata
    exact hdata.symm

theorem SameEnds.trans (h : SameEnds s t) (h' : SameEnds t s') : SameEnds s s' :=
  ⟨h'.localPort.trans h.localPort, h'.remotePort.trans h.remotePort⟩

theorem sameEnds_tcpStep (s : Socket) (seg : Segment) : SameEnds s (tcpStep s seg) := by
  rcases tcpStep_cases s seg with ⟨_, he⟩ | ⟨_, he⟩ | ⟨_, _, he⟩ | ⟨_, _, he⟩ | ⟨_, _, he⟩ | ⟨_, _, _, _, he⟩ <;> rw [he]
  all_goals exact ⟨rfl, rfl⟩

theorem sameEnds_foldl (s : Socket) (segs : List Segment) : SameEnds s (segs.foldl tcpStep s) := by
  induction segs generalizing s with
  | nil => exact ⟨rfl, rfl⟩
  | cons seg segs ih => exact (sameEnds_tcpStep s seg).trans (ih _)

theorem SegmentFrame.of_ends (hends : SameEnds s t) (h : SegmentFrame dev t frame c) : SegmentFrame dev s frame c := by
  obtain ⟨t', sum, payload, hends', hrest⟩ := h.segment
  exact ⟨⟨t', sum, payload, hends.trans hends', hrest⟩, h.frame⟩

/-- The loop puts one frame on the wire for every segment that gets through. -/
theorem sendLoop_frames (hdev : u.dev = some dev) (hrun : Uplink.sendLoop len fuel u s rest = .ret (v, s', r)) :
    ∃ fs cs, v.frames = u.frames ++ fs ∧ v.sent = u.sent ++ cs ∧ List.Forall₂ (SegmentFrame dev s) fs cs := by
  induction fuel generalizing u s rest with
  | zero => cases hrun
  | succ fuel ih =>
      rw [Uplink.sendLoop] at hrun
      split at hrun
      · cases hrun
        exact ⟨[], [], (List.append_nil _).symm, (List.append_nil _).symm, .nil⟩
      · dsimp only at hrun
        rw [Uplink.chunk_eq] at hrun
        have hmax : min 1460 rest.length ≤ 1460 := Nat.min_le_left _ _
        have hload : min 1460 rest.length ≤ rest.length := Nat.min_le_right _ _
        obtain ⟨sum, hsend⟩ := @Uplink.tcpSendPacket_eq u dev _ rest s (tcpFlagAck ||| tcpFlagPsh) hdev hmax hload
        rw [hsend, Exec.ret_bind] at hrun
        dsimp only at hrun
        have hopens : u.opens u.calls.length s.remoteIp = u.passes dev u.calls.length s.remoteIp := by
          rw [Uplink.opens, hdev, Option.any_some]
        cases hpass : u.passes dev u.calls.length s.remoteIp with
        | false =>
            rw [hopens, hpass, if_neg Bool.false_ne_true, if_pos (by decide)] at hrun
            cases hrun
            exact ⟨[], [], rfl, by rw [Uplink.sent_called]; rfl, .nil⟩
        | true =>
            rw [hopens, hpass, if_pos rfl, if_neg (by decide)] at hrun
            have hlen : (tcpSegment s (tcpFlagAck ||| tcpFlagPsh) sum (rest.take (min 1460 rest.length))).length ≤ 1480 := by
              rw [tcpSegment_length, List.length_take]
              omega
            obtain ⟨frame, hframe⟩ := @ipv4Send_passes dev u _ ipprotoTcp _ _ hpass hlen (u.ids u.calls.length)
            have hdev' : (u.called dev s.remoteIp ipprotoTcp
                (tcpSegment s (tcpFlagAck ||| tcpFlagPsh) sum (rest.take (min 1460 rest.length))) true).dev = some dev := hdev
            obtain ⟨fs, cs, hfs, hcs, hall⟩ := ih hdev' hrun
            have hends : SameEnds s (Uplink.advance (u.meanwhile s) (min 1460 rest.length)) :=
              (sameEnds_foldl s _).trans ⟨rfl, rfl⟩
            have hfirst : SegmentFrame dev s frame ⟨s.remoteIp, ipprotoTcp,
                tcpSegment s (tcpFlagAck ||| tcpFlagPsh) sum (rest.take (min 1460 rest.length)), 0⟩ :=
              ⟨⟨s, sum, _, ⟨rfl, rfl⟩, rfl, rfl⟩, _, _, hframe⟩
            refine ⟨frame :: fs, _ :: cs, ?_, ?_, .cons hfirst (hall.imp fun _ _ h => h.of_ends hends)⟩
            · rw [hfs, Uplink.called, hframe]
              exact List.append_assoc _ _ _
            · rw [hcs, Uplink.sent_called]
              exact List.append_assoc _ _ _

end Sending

/-! ## A frame of anyone -/

/-- What a frame comes to for the sockets. -/
def frameInput (m : Nat → UInt8) (len : Nat) : Option Input :=
  if len < 14 then none
  else if be16 m 12 = ethertypeIpv4 then
    let len := len - 14
    let ihl := ipIhl m 14
    if len < 20 ∨ ipVersion m 14 ≠ 4 ∨ ihl < 20 ∨ len < ihl then none
    else transport m (le32 m 26) (byteAt m 23) (14 + ihl) (sub16 (if be16 m 16 > len then len else be16 m 16) ihl)
  else none

/-- What the input does to the table. -/
def inputSlots (n : Net) (x : Option Input) : Fin maxSockets → Socket := (x.elim n fun x => x.apply n).slot

section Inputs

variable {st : Stack} {m : Nat → UInt8} {n n' : Net} {srcIp proto off len : Nat} {i : Fin maxSockets}

theorem slot_inputApply (h : n.slot = n'.slot) (x : Input) : (x.apply n).slot = (x.apply n').slot := by
  cases x with
  | icmp srcIp header payload =>
      unfold Input.apply socketIcmpInput
      rw [h]
  | udp srcIp srcPort dstPort payload =>
      funext j
      have hslot : udpSlot n dstPort = udpSlot n' dstPort := by
        unfold udpSlot
        rw [h]
      show (socketUdpInput n srcIp srcPort dstPort payload).slot j = (socketUdpInput n' srcIp srcPort dstPort payload).slot j
      rw [slot_socketUdpInput, slot_socketUdpInput, hslot, h]
  | tcp seg =>
      funext j
      have hslot : tcpSlot n seg = tcpSlot n' seg := by
        unfold tcpSlot
        rw [h]
      show (socketTcpInput n seg).slot j = (socketTcpInput n' seg).slot j
      rw [slot_socketTcpInput, slot_socketTcpInput, hslot, h]

theorem slot_answered : (answered st m srcIp proto off len).net.slot = st.net.slot := by
  unfold answered
  split
  · unfold icmpEcho
    split
    · dsimp only
      generalize (if len > 1500 then 1500 else len) = len'
      split
      · rfl
      · exact Net.slot_transmit _ _
    · rfl
  · rfl

theorem slot_handed : (handed st m srcIp proto off len).net.slot = inputSlots st.net (transport m srcIp proto off len) := by
  unfold handed inputSlots
  cases transport m srcIp proto off len with
  | none => exact slot_answered
  | some x => exact slot_inputApply slot_answered x

/-- `ethernet_rx` and the table of the sockets. -/
theorem slot_ethernetRx (st : Stack) (m : Nat → UInt8) (len : Nat) :
    (ethernetRx st m len).1.net.slot = inputSlots st.net (frameInput m len) := by
  unfold ethernetRx frameInput
  by_cases hshort : len < 14
  · rw [if_pos hshort, if_pos hshort]
    rfl
  rw [if_neg hshort, if_neg hshort]
  dsimp only
  by_cases harp : be16 m 12 = ethertypeArp
  · rw [if_pos harp, if_neg (by rw [harp]; decide)]
    show (arpRx st m 14 (len - 14)).1.net.slot = st.net.slot
    unfold arpRx
    split
    · rfl
    · dsimp only
      split
      · split <;> rfl
      · rfl
  rw [if_neg harp]
  by_cases hip : be16 m 12 = ethertypeIpv4
  · rw [if_pos hip, if_pos hip]
    by_cases hbad : len - 14 < 20 ∨ ipVersion m 14 ≠ 4 ∨ ipIhl m 14 < 20 ∨ len - 14 < ipIhl m 14
    · rw [if_pos hbad]
      show (ipv4Rx st m 14 (len - 14)).1.net.slot = st.net.slot
      unfold ipv4Rx
      split
      · rfl
      · rename_i hlong
        rw [if_pos (hbad.resolve_left hlong)]
    · rw [if_neg hbad]
      have hok : HeaderOk m 14 (len - 14) := ⟨by omega, by omega, by omega, by omega⟩
      exact (congrArg (fun s : Stack => s.net.slot) (ipv4Rx_handed hok)).trans slot_handed
  · rw [if_neg hip, if_neg hip]
    rfl

/-- No input changes whom a segment is for. -/
theorem tcpMatch_inputSlots (n : Net) (x : Option Input) (i : Fin maxSockets) (seg : Segment) :
    tcpMatch (inputSlots n x i) seg = tcpMatch (n.slot i) seg := by
  rcases x with _ | (⟨srcIp, header, payload⟩ | ⟨srcIp, srcPort, dstPort, payload⟩ | seg')
  · rfl
  · show tcpMatch ((socketIcmpInput n srcIp header payload).slot i) seg = _
    unfold socketIcmpInput
    dsimp only
    split <;> rfl
  · show tcpMatch ((socketUdpInput n srcIp srcPort dstPort payload).slot i) seg = _
    rw [slot_socketUdpInput]
    split <;> rfl
  · show tcpMatch ((socketTcpInput n seg').slot i) seg = _
    rw [slot_socketTcpInput]
    split
    · rcases tcpStep_cases (n.slot i) seg' with ⟨_, he⟩ | ⟨_, he⟩ | ⟨_, _, he⟩ | ⟨_, _, he⟩ | ⟨_, _, he⟩ |
        ⟨_, _, _, _, he⟩ <;> rw [he] <;> rfl
    · rfl

/-- What is not for a stream socket leaves it alone. -/
theorem inputSlots_other {x : Option Input} (htype : (n.slot i).type = sockStream)
    (h : ∀ seg, x = some (.tcp seg) → tcpSlot n seg ≠ some i) : inputSlots n x i = n.slot i := by
  rcases x with _ | (⟨srcIp, header, payload⟩ | ⟨srcIp, srcPort, dstPort, payload⟩ | seg)
  · rfl
  · have hnot : ¬ icmpMatch (n.slot i) = true := fun hm => by simp [icmpMatch, htype, sockStream, sockRaw] at hm
    exact if_neg hnot
  · show (socketUdpInput n srcIp srcPort dstPort payload).slot i = _
    rw [slot_socketUdpInput, if_neg]
    intro hslot
    have hm := List.find?_some hslot
    simp [udpMatch, htype, sockStream, sockDgram] at hm
  · show (socketTcpInput n seg).slot i = _
    rw [slot_socketTcpInput, if_neg (h seg rfl)]

end Inputs

/-! ## The other machine -/

/-- The stack of the other machine, how many of the frames have come, and what
the program has read. -/
structure FarEnd where
  stack : Stack
  come : Nat
  got : List UInt8

inductive FarEvent where
  | frame (m : Nat → UInt8) (len : Nat)
  | other (m : Nat → UInt8) (len : Nat)
  | recv (len : Nat)

def farStep (i : Fin maxSockets) (e : FarEnd) : FarEvent → FarEnd
  | .frame m len => { e with stack := (ethernetRx e.stack m len).1, come := e.come + 1 }
  | .other m len => { e with stack := (ethernetRx e.stack m len).1 }
  | .recv len =>
      let (net, bytes, _) := sockRecvfrom e.stack.net i len
      { e with stack := { e.stack with net := net }, got := e.got ++ bytes }

/-- A frame of the call is the next one, and any other one is not for the socket. -/
def NextFrame (fs : List (List UInt8)) (i : Fin maxSockets) (e : FarEnd) : FarEvent → Prop
  | .frame m len => ∃ f, fs[e.come]? = some f ∧ HoldsAt m 0 f ∧ f.length ≤ len
  | .other m len => ∀ seg, frameInput m len = some (.tcp seg) → tcpSlot e.stack.net seg ≠ some i
  | .recv _ => True

/-- Segments from this address for this port are for the slot. -/
def TakesFrom (n : Net) (i : Fin maxSockets) (srcIp dstPort : Nat) : Prop :=
  ∀ seg : Segment, seg.srcIp = srcIp → seg.dstPort = dstPort → tcpSlot n seg = some i

/-- A socket of an established connection that has received nothing yet. -/
structure FarInit (i : Fin maxSockets) (srcIp dstPort : Nat) (e : FarEnd) : Prop where
  type : (e.stack.net.slot i).type = sockStream
  state : (e.stack.net.slot i).tcpState = .established
  buf : (e.stack.net.slot i).rxStreamBuf = true
  rx : (e.stack.net.slot i).rx.Ok socketRxBufSize
  empty : (e.stack.net.slot i).pending = []
  mine : TakesFrom e.stack.net i srcIp dstPort
  none : e.come = 0 ∧ e.got = []

/-- The frames in their order, with others between them, and the calls of `sock_recvfrom`. -/
def farSystem (fs : List (List UInt8)) (i : Fin maxSockets) (srcIp dstPort : Nat) : System FarEnd FarEvent where
  init := FarInit i srcIp dstPort
  step := fun e x e' => NextFrame fs i e x ∧ e' = farStep i e x

/-- The payload of the frame, which is behind 54 bytes of headers, fits the ring. -/
def FrameFits (fs : List (List UInt8)) (i : Fin maxSockets) (e : FarEnd) : FarEvent → Prop
  | .frame _ _ => ∀ f, fs[e.come]? = some f → (e.stack.net.slot i).rx.count + (f.length - 54) ≤ socketRxBufSize
  | .other _ _ | .recv _ => True

@[simp] theorem farStep_frame_come (i : Fin maxSockets) (e : FarEnd) (m : Nat → UInt8) (len : Nat) :
    (farStep i e (.frame m len)).come = e.come + 1 := rfl

@[simp] theorem farStep_recv_come (i : Fin maxSockets) (e : FarEnd) (len : Nat) :
    (farStep i e (.recv len)).come = e.come := rfl

@[simp] theorem farStep_recv_net (i : Fin maxSockets) (e : FarEnd) (len : Nat) :
    (farStep i e (.recv len)).stack.net = (sockRecvfrom e.stack.net i len).1 := rfl

/-- The next frame comes, with nothing behind it. -/
theorem reach_frame {fs : List (List UInt8)} {i : Fin maxSockets} {srcIp dstPort : Nat} {e : FarEnd} {f : List UInt8}
    (h : (farSystem fs i srcIp dstPort).ReachVia (FrameFits fs i) e) (hf : fs[e.come]? = some f)
    (hroom : (e.stack.net.slot i).rx.count + (f.length - 54) ≤ socketRxBufSize) :
    (farSystem fs i srcIp dstPort).ReachVia (FrameFits fs i) (farStep i e (.frame (textMem f) f.length)) := by
  have hfits : FrameFits fs i e (.frame (textMem f) f.length) := by
    intro f' hf'
    obtain rfl : f = f' := Option.some.inj (hf.symm.trans hf')
    exact hroom
  exact h.step hfits ⟨⟨f, hf, textMem_holds f, Nat.le_refl _⟩, rfl⟩

/-- The program reads. -/
theorem reach_recv {fs : List (List UInt8)} {i : Fin maxSockets} {srcIp dstPort : Nat} {e : FarEnd}
    (h : (farSystem fs i srcIp dstPort).ReachVia (FrameFits fs i) e) (len : Nat) :
    (farSystem fs i srcIp dstPort).ReachVia (FrameFits fs i) (farStep i e (.recv len)) :=
  h.step (e := FarEvent.recv len) trivial ⟨trivial, rfl⟩

/-- What was read and what is in the ring is what has come. -/
structure FarInv (cs : List Ipv4Call) (i : Fin maxSockets) (srcIp dstPort : Nat) (e : FarEnd) : Prop where
  type : (e.stack.net.slot i).type = sockStream
  state : (e.stack.net.slot i).tcpState = .established
  buf : (e.stack.net.slot i).rxStreamBuf = true
  rx : (e.stack.net.slot i).rx.Ok socketRxBufSize
  mine : TakesFrom e.stack.net i srcIp dstPort
  data : e.got ++ (e.stack.net.slot i).pending = ((cs.take e.come).map segmentPayload).flatten

section Receiving

variable {dev : NetConfig} {s : Socket} {fs : List (List UInt8)} {cs : List Ipv4Call} {i : Fin maxSockets} {n n' : Net}
  {srcIp dstPort : Nat} {e : FarEnd}

/-- Whom a segment is for depends on the ends of the connections. -/
theorem TakesFrom.congr (h : TakesFrom n i srcIp dstPort)
    (hsame : ∀ j seg, tcpMatch (n'.slot j) seg = tcpMatch (n.slot j) seg) : TakesFrom n' i srcIp dstPort := by
  intro seg hsrc hdst
  rw [← h seg hsrc hdst]
  unfold tcpSlot
  simp only [hsame]

/-- A segment with data, in a connection that is established. -/
theorem tcpStep_data {seg : Segment} (hstate : s.tcpState = .established) (hbuf : s.rxStreamBuf = true)
    (hflags : seg.flags = tcpFlagAck ||| tcpFlagPsh) (hpos : 0 < seg.payload.length) :
    tcpStep s seg = tcpData s seg.payload := by
  have hrst : ¬ (tcpFlagAck ||| tcpFlagPsh) &&& tcpFlagRst ≠ 0 := by decide
  have hfin : ¬ (tcpFlagAck ||| tcpFlagPsh) &&& tcpFlagFin ≠ 0 := by decide
  have hsyn : s.tcpState ≠ .synSent := by rw [hstate]; decide
  unfold tcpStep
  dsimp only
  rw [hflags, if_neg hrst, if_neg hsyn, if_pos (.inl hstate), if_neg hfin, if_pos ⟨hpos, hbuf⟩]

theorem FarInv.frame (h : FarInv cs i (u32 dev.ip) (s.remotePort % 65536) e) (hall : List.Forall₂ (SegmentFrame dev s) fs cs)
    (hsizes : ∀ c ∈ cs, 1 ≤ (segmentPayload c).length) {m : Nat → UInt8} {len : Nat} (hnext : NextFrame fs i e (.frame m len))
    (hfits : FrameFits fs i e (.frame m len)) :
    FarInv cs i (u32 dev.ip) (s.remotePort % 65536) (farStep i e (.frame m len)) := by
  obtain ⟨f, hf, hm, hlen⟩ := hnext
  obtain ⟨hcome, rfl⟩ := List.getElem?_eq_some_iff.mp hf
  have hcs : e.come < cs.length := hall.length_eq ▸ hcome
  have hframe : SegmentFrame dev s fs[e.come] cs[e.come] := hall.get hcome hcs
  obtain ⟨seg, hdelivers, hseen⟩ := hframe.delivers
  have hpos : 0 < seg.payload.length := hseen.payload ▸ hsizes _ (List.getElem_mem hcs)
  have hroom : (e.stack.net.slot i).rx.count + seg.payload.length ≤ socketRxBufSize := by
    have hsize := hfits _ hf
    obtain ⟨t, sum, payload, -, -, hpayload⟩ := hframe.segment
    obtain ⟨resolve, ipId, hsent⟩ := hframe.frame
    obtain ⟨-, mac, -, hbytes⟩ := ipv4Send_some hsent
    have hdata : segmentPayload cs[e.come] = payload := by
      rw [segmentPayload, hpayload]
      rfl
    rw [hbytes, hpayload] at hsize
    simp only [List.length_append, mac.six, dev.mac.six, putBe16_length, ipHeader_length, tcpSegment_length] at hsize
    rw [hseen.payload, hdata]
    omega
  -- the slot has the data, and the others are as they were
  have hstack : (farStep i e (.frame m len)).stack = { e.stack with net := socketTcpInput e.stack.net seg } :=
    hdelivers e.stack m len hm hlen
  have hslots : ∀ j, (socketTcpInput e.stack.net seg).slot j =
      if j = i then tcpData (e.stack.net.slot i) seg.payload else e.stack.net.slot j := by
    intro j
    rw [slot_socketTcpInput, h.mine seg hseen.srcIp hseen.dstPort]
    by_cases hj : j = i
    · rw [hj, if_pos rfl, if_pos rfl, tcpStep_data h.state h.buf hseen.flags hpos]
    · rw [if_neg fun hij => hj (Option.some.inj hij).symm, if_neg hj]
  have hself := hslots i
  rw [if_pos rfl] at hself
  refine ⟨?_, ?_, ?_, ?_, ?_, ?_⟩
  · rw [hstack, hself]
    exact h.type
  · rw [hstack, hself]
    exact h.state
  · rw [hstack, hself]
    exact h.buf
  · rw [hstack, hself]
    exact h.rx.storeAll seg.payload
  · rw [hstack]
    refine h.mine.congr fun j seg' => ?_
    rw [hslots]
    split
    · rename_i hj
      rw [hj]
      rfl
    · rfl
  · rw [hstack, hself, tcpData_pending h.rx, List.take_of_length_le (by omega), ← List.append_assoc]
    show (e.got ++ _) ++ _ = ((cs.take (e.come + 1)).map segmentPayload).flatten
    rw [h.data, List.take_add_one, List.getElem?_eq_getElem hcs, List.map_append, List.flatten_append, hseen.payload]
    simp

theorem FarInv.other (h : FarInv cs i srcIp dstPort e) {m : Nat → UInt8} {len : Nat} (hnext : NextFrame fs i e (.other m len)) :
    FarInv cs i srcIp dstPort (farStep i e (.other m len)) := by
  have hslot : (farStep i e (.other m len)).stack.net.slot i = e.stack.net.slot i := by
    show (ethernetRx e.stack m len).1.net.slot i = _
    rw [slot_ethernetRx]
    exact inputSlots_other h.type hnext
  refine ⟨?_, ?_, ?_, ?_, ?_, ?_⟩
  · rw [hslot]
    exact h.type
  · rw [hslot]
    exact h.state
  · rw [hslot]
    exact h.buf
  · rw [hslot]
    exact h.rx
  · refine h.mine.congr fun j seg => ?_
    show tcpMatch ((ethernetRx e.stack m len).1.net.slot j) seg = _
    rw [slot_ethernetRx]
    exact tcpMatch_inputSlots _ _ _ _
  · rw [hslot]
    exact h.data

theorem FarInv.recv (h : FarInv cs i srcIp dstPort e) (len : Nat) :
    FarInv cs i srcIp dstPort (farStep i e (.recv len)) := by
  obtain ⟨rx, hrx, hself, hbytes⟩ := sockRecvfrom_stream len h.type h.rx
  have hslot : (farStep i e (.recv len)).stack.net.slot i = { e.stack.net.slot i with rx := rx } := hself
  refine ⟨?_, ?_, ?_, ?_, ?_, ?_⟩
  · rw [hslot]
    exact h.type
  · rw [hslot]
    exact h.state
  · rw [hslot]
    exact h.buf
  · rw [hslot]
    exact hrx
  · refine h.mine.congr fun j seg => ?_
    by_cases hj : j = i
    · rw [hj, hslot]
      rfl
    · have hother : (farStep i e (.recv len)).stack.net.slot j = e.stack.net.slot j :=
        slot_sockRecvfrom_other (fun hij => hj hij.symm) len
      rw [hother]
  · rw [hslot]
    show (e.got ++ (sockRecvfrom e.stack.net i len).2.1) ++ rx.contents socketRxBufSize = _
    rw [List.append_assoc, hbytes]
    exact h.data

/-- Nothing else has come than what was sent. -/
theorem FarInv.isPrefix {bytes : List UInt8} (h : FarInv cs i srcIp dstPort e) (hsegs : Segments s bytes cs) :
    e.got ++ (e.stack.net.slot i).pending <+: bytes := by
  have hcame : ((cs.take e.come).map segmentPayload).flatten <+: (cs.map segmentPayload).flatten :=
    ((List.take_prefix e.come cs).map segmentPayload).flatten
  rwa [← h.data, hsegs.content] at hcame

theorem FarInv.count_le {bytes : List UInt8} (h : FarInv cs i srcIp dstPort e) (hsegs : Segments s bytes cs) :
    (e.stack.net.slot i).rx.count ≤ bytes.length := by
  have hle := (h.isPrefix hsegs).length_le
  rw [List.length_append, Socket.pending, RingBuffer.length_contents] at hle
  omega

end Receiving

/-- The call has made segments of the first `m` bytes, and put them on the wire in
frames; where these come, what was read and what is in the ring is what has come. -/
theorem farInv_of_send {u v : Uplink} {dev : NetConfig} {s s' : Socket} {buf : List UInt8} {dstIp dstPort : Nat}
    {r : Int} (hdev : u.dev = some dev) (hstream : s.type = sockStream) (hest : s.tcpState = .established)
    (hseq : s.localSeq < 4294967296) (hsend : u.sockSendto s buf dstIp dstPort = .ret (v, s', r)) :
    ∃ fs cs m, v.frames = u.frames ++ fs ∧ fs.length = cs.length ∧ m ≤ buf.length ∧
      r = (if m < buf.length ∧ m = 0 then -1 else int32 m) ∧ Segments s (buf.take m) cs ∧
      ∀ i e, (farSystem fs i (u32 dev.ip) (s.remotePort % 65536)).ReachVia (FrameFits fs i) e →
        FarInv cs i (u32 dev.ip) (s.remotePort % 65536) e := by
  obtain ⟨v', t, m, cs, hrun, hsent, hmoved, hsegs, -⟩ := sockSendto_stream hstream hest hseq u buf dstIp dstPort
  rw [hsend] at hrun
  have hout := Exec.ret.inj hrun
  simp only [Prod.mk.injEq] at hout
  obtain ⟨rfl, rfl, hr⟩ := hout
  obtain ⟨fs, cs', hframes, hsent', hall⟩ :
      ∃ fs cs, v.frames = u.frames ++ fs ∧ v.sent = u.sent ++ cs ∧ List.Forall₂ (SegmentFrame dev s) fs cs := by
    unfold Uplink.sockSendto at hsend
    dsimp only at hsend
    by_cases hzero : buf.length = 0
    · rw [if_pos hzero] at hsend
      cases hsend
      exact ⟨[], [], (List.append_nil _).symm, (List.append_nil _).symm, .nil⟩
    · rw [if_neg hzero, if_pos hstream, if_neg (not_not.mpr hest)] at hsend
      exact sendLoop_frames hdev hsend
  obtain rfl : cs' = cs := List.append_cancel_left (hsent'.symm.trans hsent)
  refine ⟨fs, cs', m, hframes, hall.length_eq, hmoved.le, hr, hsegs, fun i e he => ?_⟩
  refine System.ReachVia.invariant ?_ ?_ he
  · rintro e ⟨htype, hstate, hbuf, hrx, hempty, hmine, hcome, hgot⟩
    refine ⟨htype, hstate, hbuf, hrx, hmine, ?_⟩
    rw [hempty, hgot, hcome]
    rfl
  · rintro e x e' hi hfits ⟨hnext, rfl⟩
    cases x with
    | frame m len => exact hi.frame hall (fun c hc => (hsegs.sizes c hc).1) hnext hfits
    | other m len => exact hi.other hnext
    | recv len => exact hi.recv len

/-- **A stream arrives as it was sent.**  Of the buffer the call has put `m` bytes
on the wire, as its result says.  When the frames come to an established socket in
their order, with anything behind them, and fit its ring, the program there reads
a prefix of these bytes, whatever the lengths of its calls; and all of them, when
all frames have come and nothing is left in the ring. -/
theorem stream_end_to_end {u v : Uplink} {dev : NetConfig} {s s' : Socket} {buf : List UInt8} {dstIp dstPort : Nat}
    {r : Int} (hdev : u.dev = some dev) (hstream : s.type = sockStream) (hest : s.tcpState = .established)
    (hseq : s.localSeq < 4294967296) (hsend : u.sockSendto s buf dstIp dstPort = .ret (v, s', r)) :
    ∃ fs m, v.frames = u.frames ++ fs ∧ m ≤ buf.length ∧ r = (if m < buf.length ∧ m = 0 then -1 else int32 m) ∧
      ∀ i e, (farSystem fs i (u32 dev.ip) (s.remotePort % 65536)).ReachVia (FrameFits fs i) e →
        e.got <+: buf.take m ∧
          (e.come = fs.length → (e.stack.net.slot i).rx.count = 0 → e.got = buf.take m) := by
  obtain ⟨fs, cs, m, hframes, hlen, hle, hr, hsegs, hinv⟩ := farInv_of_send hdev hstream hest hseq hsend
  refine ⟨fs, m, hframes, hle, hr, fun i e he => ?_⟩
  have hdata := (hinv i e he).data
  constructor
  · exact (List.prefix_append e.got _).trans ((hinv i e he).isPrefix hsegs)
  · intro hcome hcount
    have hnone : (e.stack.net.slot i).pending = [] :=
      List.eq_nil_of_length_eq_zero ((RingBuffer.length_contents).trans hcount)
    rw [hnone, List.append_nil, hcome, hlen, List.take_length, hsegs.content] at hdata
    exact hdata

/-! ## Two frames -/

/-- The machine `9`, which has the other end of the connection of `connectedNet`. -/
def serverUplink : Uplink := { openUplink with dev := some { e1000Device with ip := 9 } }

def serverSocket : Socket :=
  { idleSocket with type := sockStream, tcpState := .established, localPort := 80, remoteIp := 0x0F02000A
                    remotePort := 49152, localSeq := 501 }

def clientEnd : FarEnd := ⟨⟨connectedNet, fun _ => ⟨0, [], false⟩, 0x0F02000A, []⟩, 0, []⟩

/-- One byte more than a segment carries. -/
def longBuffer : List UInt8 := List.replicate 1461 7

def framesOf : Exec (Uplink × Socket × Int) → List (List UInt8)
  | .ret (u, _, _) => u.frames
  | _ => []

/-- What the call puts on the wire. -/
def wireFrames : List (List UInt8) := framesOf (serverUplink.sockSendto serverSocket longBuffer 0 0)

/-- The frame with this number comes. -/
def arrival (k : Nat) : FarEvent := .frame (textMem (wireFrames.getD k [])) (wireFrames.getD k []).length

/-- The client after the first frame and a read, and after the second and
another one. -/
def clientHalf : FarEnd := farStep 0 (farStep 0 clientEnd (arrival 0)) (.recv 1000)
def clientRead : FarEnd := farStep 0 (farStep 0 clientHalf (arrival 1)) (.recv 2000)

theorem clientEnd_init : FarInit 0 9 49152 clientEnd where
  type := rfl
  state := rfl
  buf := rfl
  rx := ⟨by decide, by decide, by decide, by decide⟩
  empty := rfl
  mine seg hsrc hdst := by
    refine tcpSlot_of_first ?_ fun j hj => absurd hj (Nat.not_lt_zero _)
    simp only [tcpMatch, hsrc, hdst]
    decide
  none := ⟨rfl, rfl⟩

theorem wireFrames_lengths : wireFrames.map List.length = [1514, 55] := by decide +kernel

theorem wireFrames_pair : ∃ f₀ f₁, wireFrames = [f₀, f₁] ∧ f₀.length = 1514 ∧ f₁.length = 55 ∧
    arrival 0 = .frame (textMem f₀) f₀.length ∧ arrival 1 = .frame (textMem f₁) f₁.length := by
  obtain ⟨f₀, rest, hw, hf₀, hrest⟩ := List.map_eq_cons_iff.mp wireFrames_lengths
  obtain ⟨f₁, rfl, hf₁⟩ := List.map_eq_singleton_iff.mp hrest
  have hfirst : arrival 0 = .frame (textMem f₀) f₀.length := by rw [arrival, hw]; rfl
  have hsecond : arrival 1 = .frame (textMem f₁) f₁.length := by rw [arrival, hw]; rfl
  exact ⟨f₀, f₁, hw, hf₀, hf₁, hfirst, hsecond⟩

/-- The first frame fits the empty ring. -/
theorem clientHalf_reach :
    (farSystem wireFrames 0 9 49152).ReachVia (FrameFits wireFrames 0) clientHalf ∧ clientHalf.come = 1 := by
  obtain ⟨f₀, f₁, hw, hf₀, -, hfirst, -⟩ := wireFrames_pair
  have hstart : (farSystem wireFrames 0 9 49152).ReachVia (FrameFits wireFrames 0) clientEnd := .init clientEnd_init
  have hreach := reach_frame (f := f₀) hstart (by rw [hw]; rfl) (by rw [hf₀]; decide)
  rw [← hfirst] at hreach
  refine ⟨reach_recv hreach 1000, ?_⟩
  rw [clientHalf, farStep_recv_come, hfirst, farStep_frame_come]
  rfl

/-- The second one fits what the first has left of it, and the second read gets
all there is. -/
theorem clientRead_reach {s : Socket} {bytes : List UInt8} {cs : List Ipv4Call} (hsegs : Segments s bytes cs)
    (hlen : bytes.length ≤ 1461)
    (hinv : ∀ e, (farSystem wireFrames 0 9 49152).ReachVia (FrameFits wireFrames 0) e → FarInv cs 0 9 49152 e) :
    (farSystem wireFrames 0 9 49152).ReachVia (FrameFits wireFrames 0) clientRead ∧
      clientRead.come = wireFrames.length ∧ (clientRead.stack.net.slot 0).rx.count = 0 := by
  obtain ⟨f₀, f₁, hw, -, hf₁, -, hsecond⟩ := wireFrames_pair
  obtain ⟨hhalf, hcome⟩ := clientHalf_reach
  have hcount := (hinv _ hhalf).count_le hsegs
  have hreach := reach_frame (f := f₁) hhalf (by rw [hw, hcome]; rfl) (by rw [hf₁, socketRxBufSize]; omega)
  rw [← hsecond] at hreach
  refine ⟨reach_recv hreach 2000, ?_, ?_⟩
  · rw [clientRead, farStep_recv_come, hsecond, farStep_frame_come, hcome, hw]
    rfl
  · have hcount₂ := (hinv _ hreach).count_le hsegs
    rw [clientRead, farStep_recv_net]
    exact sockRecvfrom_all (hinv _ hreach).type (by omega)

theorem client_reads_two_frames : ∃ v s' r, serverUplink.sockSendto serverSocket longBuffer 0 0 = .ret (v, s', r) ∧
    v.frames = wireFrames ∧ wireFrames.map List.length = [1514, 55] ∧
    (farSystem wireFrames 0 9 49152).ReachVia (FrameFits wireFrames 0) clientRead ∧ clientRead.got = longBuffer := by
  have hlen : longBuffer.length = 1461 := by
    rw [longBuffer, List.length_replicate]
  obtain ⟨v, s', m, cs, hsend, -, hmoved, -⟩ :=
    @sockSendto_stream serverSocket rfl rfl (by decide) serverUplink longBuffer 0 0
  have hopen : ∀ k, serverUplink.opens (serverUplink.calls.length + k) serverSocket.remoteIp = true := fun _ => rfl
  have hm : m = 1461 := (hmoved.all fun k _ => hopen k).trans hlen
  subst hm
  obtain ⟨fs, m, hframes, hle, hr, hfar⟩ :=
    stream_end_to_end (u := serverUplink) (s := serverSocket) rfl rfl rfl (by decide) hsend
  obtain ⟨fs', cs, m', hframes', -, -, -, hsegs, hinv⟩ :=
    farInv_of_send (u := serverUplink) (s := serverSocket) rfl rfl rfl (by decide) hsend
  have hwire : framesOf (serverUplink.sockSendto serverSocket longBuffer 0 0) = v.frames := by
    rw [hsend]
    rfl
  obtain rfl : wireFrames = fs := hwire.trans hframes
  obtain rfl : wireFrames = fs' := hwire.trans hframes'
  obtain ⟨hreach, hcome, hempty⟩ :=
    clientRead_reach hsegs (hlen ▸ List.length_take_le' m' longBuffer) (hinv 0)
  have hgot := (hfar 0 clientRead hreach).2 hcome hempty
  have hall : m = 1461 := by
    rw [hlen] at hr hle
    have hno : ¬((1461 : Nat) < 1461 ∧ (1461 : Nat) = 0) := by decide
    rw [if_neg hno, int32_of_lt (by decide)] at hr
    split at hr
    · omega
    · rw [int32_of_lt (by omega)] at hr
      omega
  refine ⟨v, s', _, hsend, hwire.symm, wireFrames_lengths, hreach, ?_⟩
  rw [hgot, hall]
  exact List.take_of_length_le (Nat.le_of_eq hlen)

end LiteBSD
