/-
# `LiteBSD.Net.Stream` — what a TCP receiver acknowledges and what it hands on

`socket_tcp_input` appends the payload of a segment to the receive ring, as
far as there is room, and moves `remote_seq` on by the LENGTH of the payload;
`sock_recvfrom` takes bytes out of the ring.  Two questions are asked here
about any run of the two:

  * does `remote_seq`, the number the socket acknowledges, ever get ahead of
    the bytes stored?  Exactly if a segment arrives that does not fit the
    ring (`acks_cover_stored_bytes`): the bytes that are dropped are
    acknowledged all the same;
  * is what the program receives a prefix of what the peer sent?  It is as
    long as segments arrive in order, once each, and fit
    (`received_is_prefix`): the number of a segment is never looked at.
-/
import LiteBSD.Net.Steps

namespace LiteBSD

open Lib

/-- What is in the receive ring of a socket. -/
def Socket.pending (s : Socket) : List UInt8 := s.rx.contents socketRxBufSize

/-- The segment goes to slot `i`, which takes its payload. -/
def Taken (n : Net) (i : Fin maxSockets) (seg : Segment) : Prop :=
  tcpSlot n seg = some i ∧ (n.slot i).takes seg

instance (n : Net) (i : Fin maxSockets) (seg : Segment) : Decidable (Taken n i seg) :=
  inferInstanceAs (Decidable (_ ∧ _))

/-- There is room for the payload. -/
def FitsRing (n : Net) (i : Fin maxSockets) (seg : Segment) : Prop :=
  (n.slot i).rx.count + seg.payload.length ≤ socketRxBufSize

/-- How much of the payload goes into the ring. -/
def storedOf (s : Socket) (seg : Segment) : List UInt8 :=
  if s.takes seg then seg.payload.take (socketRxBufSize - s.rx.count) else []

section RingBuffer

variable {s : Socket} {seg : Segment}

theorem tcpData_pending (h : s.rx.Ok socketRxBufSize) (payload : List UInt8) :
    (tcpData s payload).pending =
      s.pending ++ payload.take (socketRxBufSize - s.rx.count) :=
  h.contents_storeAll payload

/-- The ring stays well formed, whatever arrives. -/
theorem tcpStep_rx_ok (h : s.rx.Ok socketRxBufSize) (seg : Segment) :
    (tcpStep s seg).rx.Ok socketRxBufSize := by
  have hdata : (tcpData s seg.payload).rx.Ok socketRxBufSize := h.storeAll seg.payload
  rcases tcpStep_cases s seg with ⟨_, he⟩ | ⟨_, he⟩ | ⟨_, _, he⟩ | ⟨_, _, he⟩ | ⟨_, _, he⟩ |
    ⟨_, _, _, _, he⟩ <;> rw [he]
  · exact h
  · exact h
  · exact hdata
  · exact hdata
  · exact h
  · exact h

/-- The ring grows by what is taken and fits. -/
theorem tcpStep_pending (h : s.rx.Ok socketRxBufSize) (seg : Segment) :
    (tcpStep s seg).pending = s.pending ++ storedOf s seg := by
  unfold storedOf
  rcases tcpStep_cases s seg with ⟨hrst, he⟩ | ⟨hc, he⟩ | ⟨ht, _, he⟩ | ⟨ht, _, he⟩ | ⟨ht, _, he⟩ |
    ⟨_, _, ht, _, he⟩ <;> rw [he]
  · rw [if_neg (by simp [Socket.takes, hrst]), List.append_nil]
    rfl
  · rw [if_neg (by simp_all [Socket.takes, Socket.connects, Socket.streaming]), List.append_nil]
    rfl
  · rw [if_pos ht]
    exact tcpData_pending h _
  · rw [if_pos ht]
    exact tcpData_pending h _
  · rw [if_neg ht, List.append_nil]
    rfl
  · rw [if_neg ht, List.append_nil]

/-- What `sock_recvfrom` on a stream socket returns is the front of the ring. -/
theorem sockRecvfrom_stream {n : Net} {i : Fin maxSockets} (len : Nat)
    (htype : (n.slot i).type = sockStream) (h : (n.slot i).rx.Ok socketRxBufSize) :
    ∃ rx : RingBuffer UInt8, rx.Ok socketRxBufSize ∧
      (sockRecvfrom n i len).1.slot i = { n.slot i with rx := rx } ∧
      (sockRecvfrom n i len).2.1 ++ rx.contents socketRxBufSize = (n.slot i).pending := by
  unfold sockRecvfrom
  dsimp only
  split
  · exact ⟨_, h, rfl, rfl⟩
  split
  · exact ⟨_, h, rfl, rfl⟩
  · have hle : (if len < (n.slot i).rx.count then len else (n.slot i).rx.count) ≤
        (n.slot i).rx.count := by
      split
      · rename_i hlt
        exact Nat.le_of_lt hlt
      · exact Nat.le_refl _
    exact ⟨_, h.take hle, Function.update_self _ _ _, h.take_append hle⟩

/-- With room for all of it, the ring is empty afterwards. -/
theorem sockRecvfrom_all {n : Net} {i : Fin maxSockets} {len : Nat} (htype : (n.slot i).type = sockStream)
    (hlen : (n.slot i).rx.count ≤ len) : ((sockRecvfrom n i len).1.slot i).rx.count = 0 := by
  unfold sockRecvfrom
  dsimp only
  rw [if_pos htype]
  split
  · rename_i hzero
    exact Nat.le_zero.mp (hzero ▸ hlen)
  split
  · rename_i hempty
    exact hempty
  · rw [if_neg (Nat.not_lt.mpr hlen)]
    refine (congrArg (fun s : Socket => s.rx.count) (Function.update_self ..)).trans ?_
    exact Nat.sub_self _

end RingBuffer

/-! ## Acknowledged and stored -/

/-- The network, with what has been counted since the start: how far
`remote_seq` has moved, how many bytes the ring has stored, the bytes that
were acknowledged and those that were received. -/
structure AckState where
  net : Net
  acked : Nat
  stored : Nat
  data : List UInt8
  got : List UInt8

inductive StreamEvent where
  | deliver (seg : Segment)
  | recv (len : Nat)

/-- One segment, or one `sock_recvfrom`. -/
def ackStep (i : Fin maxSockets) (st : AckState) : StreamEvent → AckState
  | .deliver seg =>
      let net := socketTcpInput st.net seg
      { net := net
        acked := st.acked + sub32 (net.slot i).remoteSeq (st.net.slot i).remoteSeq
        stored := st.stored + ((net.slot i).rx.count - (st.net.slot i).rx.count)
        data := if Taken st.net i seg then st.data ++ seg.payload else st.data
        got := st.got }
  | .recv len =>
      let (net, bytes, _) := sockRecvfrom st.net i len
      { st with net := net, got := st.got ++ bytes }

/-- An established stream socket; what is in its ring was acknowledged before. -/
structure AckInit (i : Fin maxSockets) (st : AckState) : Prop where
  type : (st.net.slot i).type = sockStream
  state : (st.net.slot i).tcpState = .established
  fin : (st.net.slot i).finReceived = false
  rx : (st.net.slot i).rx.Ok socketRxBufSize
  seq : (st.net.slot i).remoteSeq < 4294967296
  counts : st.acked = 0 ∧ st.stored = 0 ∧ st.data = (st.net.slot i).pending ∧ st.got = []

/-- The segments come in order: each carries the number that is expected. -/
def NextSegment (i : Fin maxSockets) (st : AckState) : StreamEvent → Prop
  | .deliver seg => seg.payload.length < 65536 ∧ seg.seq = (st.net.slot i).remoteSeq
  | .recv _ => True

def ackSystem (i : Fin maxSockets) : System AckState StreamEvent where
  init := AckInit i
  step := fun st e st' => NextSegment i st e ∧ st' = ackStep i st e

/-- The FIN of the peer counts for one. -/
def finCount (s : Socket) : Nat := if s.finReceived then 1 else 0

/-- The acknowledgement is covered by bytes stored, and every byte that was
acknowledged has been received or is in the ring, in order. -/
def AcksCovered (i : Fin maxSockets) (st : AckState) : Prop :=
  st.acked ≤ st.stored + finCount (st.net.slot i) ∧
    st.got ++ (st.net.slot i).pending = st.data

/-- A segment whose payload is taken fits the ring. -/
def SegmentFits (i : Fin maxSockets) (st : AckState) : StreamEvent → Prop
  | .deliver seg => Taken st.net i seg → FitsRing st.net i seg
  | .recv _ => True

/-- A stream socket that has been established and not closed locally. -/
structure StreamOk (s : Socket) : Prop where
  type : s.type = sockStream
  state : (s.tcpState = .established ∧ s.finReceived = false) ∨ s.tcpState = .closeWait ∨
    s.tcpState = .closed
  rx : s.rx.Ok socketRxBufSize
  seq : s.remoteSeq < 4294967296

section Counts

variable {s : Socket} {seg : Segment}

theorem sub32_u32_add {r k : Nat} (hr : r < 4294967296) (hk : k < 4294967296) :
    sub32 (u32 (r + k)) r = k := by
  unfold sub32 u32
  omega

theorem u32_lt (k : Nat) : u32 k < 4294967296 := Nat.mod_lt _ (by decide)

theorem u32_add_u32 (a b : Nat) : u32 (u32 a + b) = u32 (a + b) := Nat.mod_add_mod a _ b

theorem StreamOk.not_connects (h : StreamOk s) : ¬s.connects seg := by
  unfold Socket.connects
  rcases h.state with ⟨he, _⟩ | he | he <;> simp [he]

/-- A socket that streams has seen no FIN. -/
theorem StreamOk.of_streaming (h : StreamOk s) (hs : s.streaming) :
    s.tcpState = .established ∧ s.finReceived = false := by
  rcases h.state with he | he | he
  · exact he
  · simp [Socket.streaming, he] at hs
  · simp [Socket.streaming, he] at hs

theorem streaming_of_takes (h : s.takes seg) : s.streaming := by
  simp only [Socket.takes, decide_eq_true_eq] at h
  exact h.2.1

theorem streaming_of_takesFin (h : s.takesFin seg) : s.streaming := by
  simp only [Socket.takesFin, decide_eq_true_eq] at h
  exact h.2.1

/-- What a segment does to the numbers: the acknowledgement moves by the
whole payload. -/
structure Accounted (s : Socket) (seg : Segment) (s' : Socket) : Prop where
  ok : StreamOk s'
  acked : sub32 s'.remoteSeq s.remoteSeq + finCount s =
    (if s.takes seg then seg.payload.length else 0) + finCount s'

theorem tcpStep_counts (h : StreamOk s) (hlen : seg.payload.length < 65536) :
    Accounted s seg (tcpStep s seg) := by
  have hseq := h.seq
  have hzero : sub32 s.remoteSeq s.remoteSeq = 0 := by
    unfold sub32
    omega
  rcases tcpStep_cases s seg with ⟨hrst, he⟩ | ⟨hc, _⟩ | ⟨ht, hf, he⟩ | ⟨ht, hf, he⟩ | ⟨ht, hf, he⟩ |
    ⟨_, _, ht, _, he⟩
  · have ht : ¬s.takes seg := by simp [Socket.takes, hrst]
    rw [he]
    refine ⟨⟨h.type, .inr (.inr rfl), h.rx, h.seq⟩, ?_⟩
    rw [if_neg ht]
    show sub32 s.remoteSeq s.remoteSeq + _ = _
    rw [hzero]
    rfl
  · exact absurd hc h.not_connects
  · obtain ⟨hest, hfin⟩ := h.of_streaming (streaming_of_takes ht)
    rw [he]
    refine ⟨⟨h.type, .inl ⟨hest, hfin⟩, h.rx.storeAll _, u32_lt _⟩, ?_⟩
    rw [if_pos ht]
    show sub32 (u32 (s.remoteSeq + _)) s.remoteSeq + _ = _
    rw [sub32_u32_add h.seq (by omega)]
    rfl
  · obtain ⟨hest, hfin⟩ := h.of_streaming (streaming_of_takes ht)
    have hstate : (tcpFin (tcpData s seg.payload)).tcpState = .closeWait := if_pos hest
    rw [he]
    refine ⟨⟨h.type, .inr (.inl hstate), h.rx.storeAll _, u32_lt _⟩, ?_⟩
    rw [if_pos ht]
    show sub32 (u32 (u32 (s.remoteSeq + _) + 1)) s.remoteSeq + _ = _
    rw [u32_add_u32, Nat.add_assoc, sub32_u32_add h.seq (by omega), finCount, hfin]
    rfl
  · obtain ⟨hest, hfin⟩ := h.of_streaming (streaming_of_takesFin hf)
    have hstate : (tcpFin s).tcpState = .closeWait := if_pos hest
    rw [he]
    refine ⟨⟨h.type, .inr (.inl hstate), h.rx, u32_lt _⟩, ?_⟩
    rw [if_neg ht]
    show sub32 (u32 (s.remoteSeq + 1)) s.remoteSeq + _ = _
    rw [sub32_u32_add h.seq (by decide), finCount, hfin]
    rfl
  · rw [he]
    refine ⟨h, ?_⟩
    rw [if_neg ht, hzero]

end Counts

/-- What holds as long as every segment fitted. -/
structure AckInv (i : Fin maxSockets) (st : AckState) : Prop where
  ok : StreamOk (st.net.slot i)
  acked : st.acked = st.stored + finCount (st.net.slot i)
  data : st.got ++ (st.net.slot i).pending = st.data

section Acks

variable {i : Fin maxSockets} {st : AckState}

theorem AckInv.of_init (h : AckInit i st) : AckInv i st := by
  obtain ⟨hacked, hstored, hdata, hgot⟩ := h.counts
  refine ⟨⟨h.type, .inl ⟨h.state, h.fin⟩, h.rx, h.seq⟩, ?_, ?_⟩
  · rw [hacked, hstored, finCount, h.fin]
    rfl
  · rw [hgot, hdata]
    rfl

theorem ackStep_recv (h : AckInv i st) (len : Nat) : AckInv i (ackStep i st (.recv len)) := by
  obtain ⟨rx, hrx, hslot, hbytes⟩ := sockRecvfrom_stream len h.ok.type h.ok.rx
  have hs : ((ackStep i st (.recv len)).net).slot i = { st.net.slot i with rx := rx } := hslot
  refine ⟨?_, ?_, ?_⟩
  · rw [hs]
    exact ⟨h.ok.type, h.ok.state, hrx, h.ok.seq⟩
  · rw [hs]
    exact h.acked
  · rw [hs]
    show (st.got ++ (sockRecvfrom st.net i len).2.1) ++ rx.contents socketRxBufSize = st.data
    rw [List.append_assoc, hbytes]
    exact h.data

/-- A segment for another socket does nothing here. -/
theorem ackStep_deliver_other {seg : Segment} (h : AckInv i st)
    (hmine : tcpSlot st.net seg ≠ some i) : AckInv i (ackStep i st (.deliver seg)) := by
  have hs : ((ackStep i st (.deliver seg)).net).slot i = st.net.slot i := by
    have hslot := slot_socketTcpInput st.net seg i
    rwa [if_neg hmine] at hslot
  have hacked : (ackStep i st (.deliver seg)).acked = st.acked := by
    show st.acked + sub32 ((socketTcpInput st.net seg).slot i).remoteSeq _ = st.acked
    rw [show (socketTcpInput st.net seg).slot i = st.net.slot i from hs]
    unfold sub32
    have := h.ok.seq
    omega
  have hstored : (ackStep i st (.deliver seg)).stored = st.stored := by
    show st.stored + (((socketTcpInput st.net seg).slot i).rx.count - _) = st.stored
    rw [show (socketTcpInput st.net seg).slot i = st.net.slot i from hs, Nat.sub_self]
    rfl
  have hdata : (ackStep i st (.deliver seg)).data = st.data := if_neg fun ht => hmine ht.1
  refine ⟨hs ▸ h.ok, ?_, ?_⟩
  · rw [hacked, hstored, hs]
    exact h.acked
  · rw [hdata, hs]
    exact h.data

/-- A segment for the socket: what is counted afterwards. -/
theorem ackStep_deliver_mine {seg : Segment} (h : AckInv i st)
    (hmine : tcpSlot st.net seg = some i) (hlen : seg.payload.length < 65536) :
    StreamOk ((ackStep i st (.deliver seg)).net.slot i) ∧
      (ackStep i st (.deliver seg)).acked = st.stored +
        (if Taken st.net i seg then seg.payload.length else 0) +
          finCount ((ackStep i st (.deliver seg)).net.slot i) ∧
      (ackStep i st (.deliver seg)).stored =
        st.stored + (storedOf (st.net.slot i) seg).length ∧
      st.got ++ ((ackStep i st (.deliver seg)).net.slot i).pending =
        st.data ++ storedOf (st.net.slot i) seg := by
  have hs : ((ackStep i st (.deliver seg)).net).slot i = tcpStep (st.net.slot i) seg := by
    have hslot := slot_socketTcpInput st.net seg i
    rwa [if_pos hmine] at hslot
  obtain ⟨hok, hacked⟩ := tcpStep_counts h.ok hlen
  have hpending := tcpStep_pending h.ok.rx seg
  have htaken : Taken st.net i seg ↔ (st.net.slot i).takes seg = true := and_iff_right hmine
  rw [hs]
  refine ⟨hok, ?_, ?_, ?_⟩
  · show st.acked + sub32 ((socketTcpInput st.net seg).slot i).remoteSeq _ = _
    rw [show (socketTcpInput st.net seg).slot i = _ from hs, h.acked]
    simp only [htaken]
    omega
  · show st.stored + (((socketTcpInput st.net seg).slot i).rx.count - _) = _
    rw [show (socketTcpInput st.net seg).slot i = _ from hs]
    have hcount := congrArg List.length hpending
    rw [List.length_append, Socket.pending, Socket.pending, RingBuffer.length_contents,
      RingBuffer.length_contents] at hcount
    omega
  · rw [hpending, ← List.append_assoc, h.data]

/-- The payload is stored whole exactly if it fits. -/
theorem length_storedOf {seg : Segment} (ht : (st.net.slot i).takes seg)
    (hcount : (st.net.slot i).rx.count ≤ socketRxBufSize) :
    (seg.payload.length ≤ (storedOf (st.net.slot i) seg).length ↔ FitsRing st.net i seg) ∧
      (FitsRing st.net i seg → storedOf (st.net.slot i) seg = seg.payload) := by
  unfold storedOf FitsRing
  rw [if_pos ht, List.length_take]
  refine ⟨by omega, fun hfit => List.take_of_length_le (by omega)⟩

/-- A step whose segment fits keeps the invariant. -/
theorem AckInv.step {e : StreamEvent} (h : AckInv i st) (hg : SegmentFits i st e)
    (hnext : NextSegment i st e) : AckInv i (ackStep i st e) := by
  cases e with
  | recv len => exact ackStep_recv h len
  | deliver seg =>
      by_cases hmine : tcpSlot st.net seg = some i
      · obtain ⟨hok, hacked, hstored, hdata⟩ := ackStep_deliver_mine h hmine hnext.1
        by_cases ht : Taken st.net i seg
        · have hfits := (length_storedOf ht.2 h.ok.rx.count).2 (hg ht)
          rw [if_pos ht] at hacked
          rw [hfits] at hstored hdata
          refine ⟨hok, ?_, ?_⟩
          · rw [hacked, hstored]
          · show st.got ++ _ = if Taken st.net i seg then _ else _
            rw [hdata, if_pos ht]
        · have hnone : storedOf (st.net.slot i) seg = [] := if_neg fun hs => ht ⟨hmine, hs⟩
          rw [if_neg ht] at hacked
          rw [hnone] at hstored hdata
          refine ⟨hok, ?_, ?_⟩
          · rw [hacked, hstored]
            rfl
          · show st.got ++ _ = if Taken st.net i seg then _ else _
            rw [hdata, if_neg ht, List.append_nil]
      · exact ackStep_deliver_other h hmine

/-- A segment that does not fit is acknowledged beyond what is stored. -/
theorem acksCovered_step {e : StreamEvent} (h : AckInv i st) (hnext : NextSegment i st e) :
    AcksCovered i (ackStep i st e) ↔ SegmentFits i st e := by
  constructor
  · intro hc
    cases e with
    | recv len => trivial
    | deliver seg =>
        intro ht
        obtain ⟨_, hacked, hstored, _⟩ := ackStep_deliver_mine h ht.1 hnext.1
        have hle := hc.1
        rw [hacked, hstored, if_pos ht] at hle
        refine (length_storedOf ht.2 h.ok.rx.count).1.mp ?_
        omega
  · intro hg
    have h' := h.step hg hnext
    exact ⟨Nat.le_of_eq h'.acked, h'.data⟩

end Acks

/-- Along any run of in-order segments and `sock_recvfrom` calls on an
established stream socket, the acknowledgement is covered by stored bytes at every step,
and no acknowledged byte is lost, exactly if every segment that is taken
fits the ring. -/
theorem acks_cover_stored_bytes {i : Fin maxSockets}
    {tr : List (AckState × StreamEvent × AckState)} {st : AckState}
    (h : (ackSystem i).Trace tr st) :
    (∀ x ∈ tr, AcksCovered i x.2.2) ↔ ∀ x ∈ tr, SegmentFits i x.1 x.2.1 := by
  refine System.Trace.good_iff_guarded (I := AckInv i) (P := fun _ _ st' => AcksCovered i st')
    (fun _ => AckInv.of_init) ?_ ?_ h
  · rintro st e st' hi hg ⟨hnext, rfl⟩
    exact hi.step hg hnext
  · rintro st e st' hi ⟨hnext, rfl⟩
    exact acksCovered_step hi hnext

/-- A socket just connected: what is counted starts at nothing. -/
def connectedState : AckState := ⟨connectedNet, 0, 0, [], []⟩

theorem ackInit_connected : AckInit 0 connectedState :=
  ⟨rfl, rfl, rfl, ⟨by decide, by decide, by decide, by decide⟩, by decide, rfl, rfl, rfl, rfl⟩

/-- Two bytes delivered and received. -/
theorem acks_of_two_bytes : ∃ tr st, (ackSystem 0).Trace tr st ∧ st.got = [7, 8] ∧ tr.length = 2 ∧
    ((∀ x ∈ tr, AcksCovered 0 x.2.2) ↔ ∀ x ∈ tr, SegmentFits 0 x.1 x.2.1) := by
  have h₁ := System.Trace.nil (S := ackSystem 0) ackInit_connected
  have h₂ := h₁.snoc (e := StreamEvent.deliver (dataSegment 501 [7, 8])) ⟨⟨by decide, rfl⟩, rfl⟩
  have h₃ := h₂.snoc (e := StreamEvent.recv 10) ⟨trivial, rfl⟩
  exact ⟨_, _, h₃, rfl, rfl, acks_cover_stored_bytes h₃⟩

/-- Slot 0 is first in the table. -/
theorem tcpSlot_zero {n : Net} {seg : Segment} (h : tcpMatch (n.slot 0) seg = true) :
    tcpSlot n seg = some 0 := by
  obtain ⟨j, hj⟩ := tcpSlot_isSome h
  by_cases hzero : j = 0
  · rw [hj, hzero]
  · have hpos : 0 < j := Fin.pos_iff_ne_zero.mpr hzero
    rw [(tcpSlot_eq_some hj).2 0 hpos] at h
    cases h

/-- `k` segments of 1460 bytes in the ring, as long as there is room. -/
theorem trace_fullSegments {payload : List UInt8} (hpay : payload.length = 1460) (k : Nat)
    (hk : k ≤ 44) : ∃ tr st, (ackSystem 0).Trace tr st ∧ AckInv 0 st ∧
      (st.net.slot 0).rx.count = 1460 * k ∧ (st.net.slot 0).remoteSeq = 501 + 1460 * k ∧
      (∀ seq, (st.net.slot 0).takes (dataSegment seq payload)) ∧
      ∀ seq, tcpMatch (st.net.slot 0) (dataSegment seq payload) := by
  induction k with
  | zero =>
      refine ⟨[], connectedState, .nil ackInit_connected, .of_init ackInit_connected, rfl, rfl,
        fun seq => ?_, fun _ => rfl⟩
      refine decide_eq_true ⟨show tcpFlagAck &&& tcpFlagRst = 0 by decide, by decide, ?_, rfl⟩
      show 0 < payload.length
      omega
  | succ k ih =>
      obtain ⟨tr, st, htr, hinv, hcount, hseq, htakes, hmatch⟩ := ih (by omega)
      generalize hseg : dataSegment (501 + 1460 * k) payload = seg
      have hlen : seg.payload.length = 1460 := by rw [← hseg]; exact hpay
      have ht : (st.net.slot 0).takes seg := hseg ▸ htakes _
      have hmine := tcpSlot_zero (hseg ▸ hmatch (501 + 1460 * k) : tcpMatch (st.net.slot 0) seg)
      have hfits : FitsRing st.net 0 seg := by
        unfold FitsRing socketRxBufSize
        rw [hcount, hlen]
        omega
      have hnext : NextSegment 0 st (.deliver seg) := by
        refine ⟨by omega, ?_⟩
        rw [hseq, ← hseg]
        rfl
      have hstep : tcpStep (st.net.slot 0) seg = tcpData (st.net.slot 0) seg.payload := by
        have hflags : seg.flags = tcpFlagAck := by rw [← hseg]; rfl
        rcases tcpStep_cases (st.net.slot 0) seg with ⟨hrst, _⟩ | ⟨hc, _⟩ | ⟨_, _, he⟩ |
          ⟨_, hf, _⟩ | ⟨hno, _⟩ | ⟨_, _, hno, _⟩
        · rw [hflags] at hrst
          exact absurd hrst (by decide)
        · exact absurd hc hinv.ok.not_connects
        · exact he
        · simp [Socket.takesFin, hflags, tcpFlagAck, tcpFlagFin] at hf
        · exact absurd ht hno
        · exact absurd ht hno
      have hslot : (socketTcpInput st.net seg).slot 0 =
          tcpData (st.net.slot 0) seg.payload := by
        rw [slot_socketTcpInput, if_pos hmine, hstep]
      refine ⟨_, _, htr.snoc (e := StreamEvent.deliver seg) ⟨hnext, rfl⟩,
        hinv.step (e := StreamEvent.deliver seg) (fun _ => hfits) hnext, ?_, ?_, ?_, ?_⟩
      · have hp := congrArg List.length (tcpData_pending hinv.ok.rx seg.payload)
        rw [List.length_append, List.length_take, Socket.pending, Socket.pending,
          RingBuffer.length_contents, RingBuffer.length_contents, hcount, hlen] at hp
        show ((socketTcpInput st.net seg).slot 0).rx.count = _
        rw [hslot, hp]
        unfold socketRxBufSize
        omega
      · show ((socketTcpInput st.net seg).slot 0).remoteSeq = _
        rw [hslot]
        show u32 ((st.net.slot 0).remoteSeq + seg.payload.length) = _
        rw [hseq, hlen, u32_of_lt (by omega)]
        omega
      · intro seq
        show ((socketTcpInput st.net seg).slot 0).takes _ = true
        rw [hslot]
        exact htakes seq
      · intro seq
        show tcpMatch ((socketTcpInput st.net seg).slot 0) _ = true
        rw [hslot]
        exact hmatch seq

/-- 45 segments of 1460 bytes and no `sock_recvfrom`: the last does not fit,
and is acknowledged whole. -/
theorem ack_of_dropped_bytes : ¬∀ i tr st, (ackSystem i).Trace tr st →
    ∀ x ∈ tr, AcksCovered i x.2.2 := by
  intro hall
  have hpay : (List.replicate 1460 (7 : UInt8)).length = 1460 := List.length_replicate
  obtain ⟨tr, st, htr, hinv, hcount, hseq, htakes, hmatch⟩ := trace_fullSegments hpay 44 (by decide)
  generalize List.replicate 1460 (7 : UInt8) = payload at hpay htakes hmatch
  have hnext : NextSegment 0 st (.deliver (dataSegment (501 + 1460 * 44) payload)) := by
    refine ⟨?_, hseq.symm⟩
    show payload.length < 65536
    omega
  have hcov := hall 0 _ _
    (htr.snoc (e := StreamEvent.deliver (dataSegment (501 + 1460 * 44) payload)) ⟨hnext, rfl⟩) _
    List.mem_cons_self
  have hfits : (st.net.slot 0).rx.count + payload.length ≤ socketRxBufSize :=
    (acksCovered_step hinv hnext).mp hcov ⟨tcpSlot_zero (hmatch _), htakes _⟩
  rw [hcount, hpay] at hfits
  exact absurd hfits (by decide)

/-! ## What is received against what was sent -/

/-- The network, how much of the stream was taken, and what was received. -/
structure ReadState where
  net : Net
  taken : Nat
  got : List UInt8

inductive PeerEvent where
  | deliver (seg : Segment) (start : Nat)
  | recv (len : Nat)

def readStep (i : Fin maxSockets) (st : ReadState) : PeerEvent → ReadState
  | .deliver seg _ =>
      { st with
        net := socketTcpInput st.net seg
        taken := if Taken st.net i seg then st.taken + seg.payload.length else st.taken }
  | .recv len =>
      let (net, bytes, _) := sockRecvfrom st.net i len
      { st with net := net, got := st.got ++ bytes }

/-- The peer sends `stream`: a segment carries the bytes from `start` on,
under the number that belongs to them. -/
def FromStream (stream : List UInt8) (base : Nat) : PeerEvent → Prop
  | .deliver seg start =>
      seg.payload <+: stream.drop start ∧ seg.seq = u32 (base + start) ∧
        seg.payload.length < 65536
  | .recv _ => True

/-- An established stream socket that has received nothing yet, whose peer
starts at `base`. -/
structure ReadInit (i : Fin maxSockets) (base : Nat) (st : ReadState) : Prop where
  type : (st.net.slot i).type = sockStream
  state : (st.net.slot i).tcpState = .established
  rx : (st.net.slot i).rx.Ok socketRxBufSize
  empty : (st.net.slot i).pending = []
  seq : (st.net.slot i).remoteSeq = base
  none : st.taken = 0 ∧ st.got = []

/-- Segments of the stream in any order, any number of times or not at all,
and `sock_recvfrom` calls. -/
def readSystem (i : Fin maxSockets) (stream : List UInt8) (base : Nat) :
    System ReadState PeerEvent where
  init := ReadInit i base
  step := fun st e st' => FromStream stream base e ∧ st' = readStep i st e

/-- A segment that is taken is the next one, and fits. -/
def InOrder (i : Fin maxSockets) (st : ReadState) : PeerEvent → Prop
  | .deliver seg start => Taken st.net i seg → start = st.taken ∧ FitsRing st.net i seg
  | .recv _ => True

/-- What was received and what is in the ring are the stream so far. -/
structure ReadInv (i : Fin maxSockets) (stream : List UInt8) (st : ReadState) : Prop where
  type : (st.net.slot i).type = sockStream
  rx : (st.net.slot i).rx.Ok socketRxBufSize
  data : st.got ++ (st.net.slot i).pending = stream.take st.taken

section Reads

variable {i : Fin maxSockets} {st : ReadState} {stream : List UInt8} {base : Nat}

theorem ReadInv.step {e : PeerEvent} (h : ReadInv i stream st) (hg : InOrder i st e)
    (hs : FromStream stream base e) : ReadInv i stream (readStep i st e) := by
  cases e with
  | recv len =>
      obtain ⟨rx, hrx, hslot, hbytes⟩ := sockRecvfrom_stream len h.type h.rx
      have hslot : ((readStep i st (.recv len)).net).slot i = { st.net.slot i with rx := rx } :=
        hslot
      refine ⟨hslot ▸ h.type, hslot ▸ hrx, ?_⟩
      rw [hslot]
      show (st.got ++ (sockRecvfrom st.net i len).2.1) ++ rx.contents socketRxBufSize = _
      rw [List.append_assoc, hbytes]
      exact h.data
  | deliver seg start =>
      have hslot := slot_socketTcpInput st.net seg i
      by_cases hmine : tcpSlot st.net seg = some i
      · rw [if_pos hmine] at hslot
        have hpend := tcpStep_pending h.rx seg
        refine ⟨?_, ?_, ?_⟩
        · show ((socketTcpInput st.net seg).slot i).type = _
          rw [hslot, tcpStep_type]
          exact h.type
        · show ((socketTcpInput st.net seg).slot i).rx.Ok _
          rw [hslot]
          exact tcpStep_rx_ok h.rx seg
        · show st.got ++ ((socketTcpInput st.net seg).slot i).pending = stream.take (if _ then _ else _)
          rw [hslot, hpend, ← List.append_assoc, h.data]
          by_cases ht : Taken st.net i seg
          · obtain ⟨rfl, hfits⟩ := hg ht
            have hstored : storedOf (st.net.slot i) seg = seg.payload := by
              unfold FitsRing at hfits
              rw [storedOf, if_pos ht.2, List.take_of_length_le (by omega)]
            rw [if_pos ht, hstored, List.take_add, ← List.prefix_iff_eq_take.mp hs.1]
          · rw [if_neg ht, storedOf, if_neg fun hk => ht ⟨hmine, hk⟩, List.append_nil]
      · rw [if_neg hmine] at hslot
        have hnot : ¬Taken st.net i seg := fun ht => hmine ht.1
        refine ⟨?_, ?_, ?_⟩
        · show ((socketTcpInput st.net seg).slot i).type = _
          rw [hslot]
          exact h.type
        · show ((socketTcpInput st.net seg).slot i).rx.Ok _
          rw [hslot]
          exact h.rx
        · show st.got ++ ((socketTcpInput st.net seg).slot i).pending = stream.take (if _ then _ else _)
          rw [hslot, if_neg hnot]
          exact h.data

end Reads

/-- In every run in which the segments that are taken arrive in order, once
each, and fit the ring, what the program has received is a prefix of what
the peer has sent. -/
theorem received_is_prefix {i : Fin maxSockets} {stream : List UInt8} {base : Nat} {st : ReadState}
    (h : (readSystem i stream base).ReachVia (InOrder i) st) : st.got <+: stream := by
  have hinv : ReadInv i stream st := by
    refine System.ReachVia.invariant ?_ ?_ h
    · intro st hi
      refine ⟨hi.type, hi.rx, ?_⟩
      rw [hi.empty, hi.none.1, hi.none.2]
      rfl
    · rintro st e st' hi hg ⟨hs, rfl⟩
      exact hi.step hg hs
  exact (List.prefix_append st.got _).trans (hinv.data ▸ List.take_prefix _ _)

/-- Two segments in order, received at once. -/
theorem received_two_segments : ∃ st, (readSystem 0 [7, 8, 9] 501).ReachVia (InOrder 0) st ∧
    st.got = [7, 8, 9] ∧ st.got <+: [7, 8, 9] := by
  have h₀ := System.ReachVia.init (S := readSystem 0 [7, 8, 9] 501) (G := InOrder 0)
    (s := ⟨connectedNet, 0, []⟩)
    ⟨rfl, rfl, ⟨by decide, by decide, by decide, by decide⟩, rfl, rfl, rfl, rfl⟩
  have h₁ := h₀.step (e := PeerEvent.deliver (dataSegment 501 [7, 8]) 0)
    (fun _ => ⟨rfl, show 0 + 2 ≤ 65536 by decide⟩) ⟨⟨⟨[9], rfl⟩, rfl, by decide⟩, rfl⟩
  have h₂ := h₁.step (e := PeerEvent.deliver (dataSegment 503 [9]) 2)
    (fun _ => ⟨rfl, show 2 + 1 ≤ 65536 by decide⟩) ⟨⟨⟨[], rfl⟩, rfl, by decide⟩, rfl⟩
  have h₃ := h₂.step (e := PeerEvent.recv 10) trivial ⟨trivial, rfl⟩
  exact ⟨_, h₃, rfl, received_is_prefix h₃⟩

/-- A segment delivered twice is received twice. -/
theorem duplicate_received : ¬∀ i stream base st, (readSystem i stream base).Reach st →
    st.got <+: stream := by
  intro hall
  have h₀ := System.ReachVia.init (S := readSystem 0 [7, 8] 501) (G := fun _ _ => True)
    (s := ⟨connectedNet, 0, []⟩)
    ⟨rfl, rfl, ⟨by decide, by decide, by decide, by decide⟩, rfl, rfl, rfl, rfl⟩
  have h₁ := h₀.step (e := PeerEvent.deliver (dataSegment 501 [7]) 0) trivial
    ⟨⟨⟨[8], rfl⟩, rfl, by decide⟩, rfl⟩
  have h₂ := h₁.step (e := PeerEvent.deliver (dataSegment 501 [7]) 0) trivial
    ⟨⟨⟨[8], rfl⟩, rfl, by decide⟩, rfl⟩
  have h₃ := h₂.step (e := PeerEvent.recv 10) trivial ⟨trivial, rfl⟩
  exact absurd (hall _ _ _ _ h₃) (by decide)

end LiteBSD
