/-
# `LiteBSD.Net.Demux` — which connection a segment belongs to

A connection is known by four numbers, two addresses and two ports.
`socket_tcp_input` compares two of them (the local port and the remote
address, where a socket without a remote address matches anything) and takes
the FIRST slot that agrees.  This module says what a segment should do,
`Demultiplexed`, and for which tables and segments it does.
-/
import LiteBSD.Net.Steps

namespace LiteBSD

open Lib

/-- A live stream socket with a connection, or on the way to one. -/
def Socket.connected (s : Socket) : Bool :=
  s.refCount ≠ 0 ∧ s.type = sockStream ∧
    (s.tcpState = .synSent ∨ s.tcpState = .established ∨ s.tcpState = .finWait1 ∨
      s.tcpState = .finWait2 ∨ s.tcpState = .closeWait)

/-- The segment comes from the peer of the socket. -/
def Socket.owns (s : Socket) (seg : Segment) : Bool :=
  s.connected ∧ s.localPort = seg.dstPort ∧ s.remoteIp = seg.srcIp ∧ s.remotePort = seg.srcPort

/-- What a segment may change is as before. -/
structure SameConnection (s s' : Socket) : Prop where
  tcpState : s'.tcpState = s.tcpState
  remoteSeq : s'.remoteSeq = s.remoteSeq
  localSeq : s'.localSeq = s.localSeq
  error : s'.error = s.error
  rx : s'.rx = s.rx

/-- A segment changes a connection only if it comes from its peer; and if
there is a connection it belongs to, it is processed by that one. -/
def Demultiplexed (n : Net) (seg : Segment) : Prop :=
  (∀ i, (n.slot i).connected → ¬SameConnection (n.slot i) ((socketTcpInput n seg).slot i) →
    (n.slot i).owns seg) ∧
  ((∃ i, (n.slot i).owns seg) → ∃ i, (n.slot i).owns seg ∧ tcpSlot n seg = some i)

/-- The segment asks nothing of the socket: no RST, no answer to a SYN, no
data and no FIN that it would take. -/
def Socket.inert (s : Socket) (seg : Segment) : Bool :=
  seg.flags &&& tcpFlagRst = 0 ∧ !s.connects seg ∧ !s.takes seg ∧ !s.takesFin seg

/-- The first slot whose local port and remote address (or lack of one) agree
with the segment has the segment's connection; or there is no such
connection, and that slot has none at all or nothing to do. -/
def FirstMatchIsPeer (n : Net) (seg : Segment) : Prop :=
  ∀ i, tcpMatch (n.slot i) seg → (∀ j, j < i → ¬tcpMatch (n.slot j) seg) →
    (n.slot i).owns seg ∨
      (∀ j, ¬(n.slot j).owns seg) ∧ ((n.slot i).connected = false ∨ (n.slot i).inert seg)

section Demux

variable {n : Net} {s : Socket} {seg : Segment} {i : Fin maxSockets}

theorem u32_add_ne {r k : Nat} (hpos : 0 < k) (hk : k < 4294967296) : u32 (r + k) ≠ r := by
  unfold u32
  omega

theorem tcpMatch_of_owns (h : s.owns seg) : tcpMatch s seg := by
  simp only [Socket.owns, Socket.connected, decide_eq_true_eq] at h
  obtain ⟨⟨href, htype, _⟩, hport, hip, _⟩ := h
  exact decide_eq_true ⟨href, htype, hport, .inr hip⟩

/-- On a connection, exactly the segments that ask for nothing change
nothing. -/
theorem sameConnection_iff_inert (hc : s.connected) (hlen : seg.payload.length < 65536) :
    SameConnection s (tcpStep s seg) ↔ s.inert seg := by
  have hstate : s.tcpState ≠ .closed := by
    simp only [Socket.connected, decide_eq_true_eq] at hc
    rcases hc.2.2 with he | he | he | he | he <;> rw [he] <;> decide
  have hpos : s.takes seg → 0 < seg.payload.length := by
    intro ht
    simp only [Socket.takes, decide_eq_true_eq] at ht
    exact ht.2.2.1
  unfold Socket.inert
  rcases tcpStep_cases s seg with ⟨hrst, he⟩ | ⟨hcon, he⟩ | ⟨ht, hf, he⟩ | ⟨ht, hf, he⟩ |
    ⟨ht, hf, he⟩ | ⟨hrst, hcon, ht, hf, he⟩ <;> rw [he]
  · exact ⟨fun h => absurd h.tcpState.symm hstate, fun h => by simp [hrst] at h⟩
  · have hsyn : s.tcpState = .synSent := by
      simp only [Socket.connects, decide_eq_true_eq] at hcon
      exact hcon.2.1
    refine ⟨fun h => ?_, fun h => by simp [hcon] at h⟩
    have hest : TcpState.established = s.tcpState := h.tcpState
    rw [hsyn] at hest
    cases hest
  · refine ⟨fun h => absurd h.remoteSeq (u32_add_ne (hpos ht) (by omega)), fun h => ?_⟩
    simp [ht] at h
  · refine ⟨fun h => ?_, fun h => by simp [ht] at h⟩
    have hseq : u32 (u32 (s.remoteSeq + seg.payload.length) + 1) = s.remoteSeq := h.remoteSeq
    rw [u32, u32, Nat.mod_add_mod, Nat.add_assoc] at hseq
    exact absurd hseq (u32_add_ne (Nat.succ_pos _) (by omega))
  · refine ⟨fun h => absurd h.remoteSeq (u32_add_ne Nat.one_pos (by decide)), fun h => ?_⟩
    simp [hf] at h
  · exact ⟨fun _ => by simp [hrst, hcon, ht, hf], fun _ => ⟨rfl, rfl, rfl, rfl, rfl⟩⟩

theorem tcpSlot_of_first (hi : tcpMatch (n.slot i) seg)
    (hfirst : ∀ j, j < i → ¬tcpMatch (n.slot j) seg) : tcpSlot n seg = some i := by
  obtain ⟨j, hj⟩ := tcpSlot_isSome hi
  obtain ⟨hjm, hjf⟩ := tcpSlot_eq_some hj
  rcases Nat.lt_trichotomy i j with hlt | heq | hgt
  · rw [hjf i hlt] at hi
    cases hi
  · rw [hj, Fin.ext heq]
  · exact absurd hjm (hfirst j hgt)

end Demux

/-- A segment is demultiplexed exactly if the first slot that agrees with it
in local port and remote address is the one it belongs to, or it belongs to
none and changes none. -/
theorem demultiplexed_iff {n : Net} {seg : Segment} (hlen : seg.payload.length < 65536) :
    Demultiplexed n seg ↔ FirstMatchIsPeer n seg := by
  constructor
  · rintro ⟨honly, hown⟩ i hi hfirst
    have hslot := tcpSlot_of_first hi hfirst
    by_cases hex : ∃ j, (n.slot j).owns seg
    · obtain ⟨j, hj, hjslot⟩ := hown hex
      rw [hslot, Option.some.injEq] at hjslot
      exact .inl (hjslot ▸ hj)
    · refine .inr ⟨fun j hj => hex ⟨j, hj⟩, ?_⟩
      cases hc : (n.slot i).connected with
      | false => exact .inl rfl
      | true =>
          refine .inr ((sameConnection_iff_inert hc hlen).mp ?_)
          by_contra hchanged
          refine hex ⟨i, honly i hc ?_⟩
          rwa [slot_socketTcpInput, if_pos hslot]
  · intro hclear
    refine ⟨fun i hc hchanged => ?_, ?_⟩
    · rw [slot_socketTcpInput] at hchanged
      by_cases hslot : tcpSlot n seg = some i
      · rw [if_pos hslot, sameConnection_iff_inert hc hlen] at hchanged
        obtain ⟨hi, hfirst⟩ := tcpSlot_eq_some hslot
        rcases hclear i hi fun j hj => Bool.eq_false_iff.mp (hfirst j hj) with h | ⟨_, h | h⟩
        · exact h
        · rw [hc] at h
          cases h
        · exact absurd h hchanged
      · rw [if_neg hslot] at hchanged
        exact absurd ⟨rfl, rfl, rfl, rfl, rfl⟩ hchanged
    · rintro ⟨j, hj⟩
      obtain ⟨i, hslot⟩ := tcpSlot_isSome (tcpMatch_of_owns hj)
      obtain ⟨hi, hfirst⟩ := tcpSlot_eq_some hslot
      rcases hclear i hi fun k hk => Bool.eq_false_iff.mp (hfirst k hk) with h | ⟨hno, _⟩
      · exact ⟨i, h, hslot⟩
      · exact absurd hj (hno j)

/-- A second connection, from the next port to `9:81`. -/
def twoConnections : Net :=
  socketTcpInput (sockConnect (sockCreate connectedNet afInet sockStream 0).1 1 9 81).1
    { peerSegment (tcpFlagSyn ||| tcpFlagAck) 500 [] with srcPort := 81, dstPort := 49153 }

/-- Data from its peer. -/
def dataOfSecond : Segment := { dataSegment 501 [7] with srcPort := 81, dstPort := 49153 }

theorem demultiplexed_second : Demultiplexed twoConnections dataOfSecond ∧
    (twoConnections.slot 1).owns dataOfSecond ∧ tcpSlot twoConnections dataOfSecond = some 1 := by
  have howns : (twoConnections.slot 1).owns dataOfSecond = true := by decide
  have hmatch : ∀ i, tcpMatch (twoConnections.slot i) dataOfSecond → i = 1 := by decide
  refine ⟨(demultiplexed_iff (by decide)).mpr fun i hi _ => .inl ?_, howns, by decide⟩
  rw [hmatch i hi]
  exact howns

/-- Data from another port of the same host goes into the connection. -/
theorem segment_of_other_port :
    ¬∀ n seg, seg.payload.length < 65536 → Demultiplexed n seg := by
  intro hall
  have h := hall connectedNet { dataSegment 501 [7] with srcPort := 81 } (by decide)
  have hown := h.1 0 (by decide) fun hsame => absurd hsame.remoteSeq (by decide)
  exact absurd hown (by decide)

end LiteBSD
