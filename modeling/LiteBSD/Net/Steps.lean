/-
# `LiteBSD.Net.Steps` — what the network does to one slot

Sending packets changes no socket.  So what `socket_tcp_input` does to the
table is what it does to ONE socket (`tcpStep`), the first that `tcpMatch`
takes (`slot_socketTcpInput`), and what it sends is at most acknowledgements.
The following modules argue about `tcpStep`.
-/
import LiteBSD.Lib.Runs
import LiteBSD.Net.Socket

namespace LiteBSD

open Lib

/-- The socket after the segment it was taken for. -/
def tcpStep (s : Socket) (seg : Segment) : Socket :=
  if seg.flags &&& tcpFlagRst ≠ 0 then { s with tcpState := .closed, error := 104 }
  else if s.tcpState = .synSent then
    if seg.flags &&& (tcpFlagSyn ||| tcpFlagAck) = tcpFlagSyn ||| tcpFlagAck then
      { s with
        remoteSeq := u32 (seg.seq + 1), localSeq := seg.ack, remoteWindow := seg.window
        tcpState := .established }
    else s
  else if s.tcpState = .established ∨ s.tcpState = .finWait1 ∨ s.tcpState = .finWait2 then
    let s := if 0 < seg.payload.length ∧ s.rxStreamBuf then tcpData s seg.payload else s
    if seg.flags &&& tcpFlagFin ≠ 0 then tcpFin s else s
  else s

section Slots

variable {n : Net} {i : Fin maxSockets} {seg : Segment}

@[simp] theorem Net.slot_transmit (n : Net) (p : Packet) : (n.transmit p).1.slot = n.slot := by
  unfold Net.transmit
  split <;> rfl

@[simp] theorem slot_tcpSendPacket (n : Net) (s : Socket) (flags : Nat) (payload : List UInt8) :
    (tcpSendPacket n s flags payload).1.slot = n.slot :=
  Net.slot_transmit n _

@[simp] theorem Net.slot_setSlot (n : Net) (i : Fin maxSockets) (s : Socket) :
    (n.setSlot i s).slot = Function.update n.slot i s := rfl

/-- The table after the segment: one slot has changed. -/
theorem slot_tcpInputAt (n : Net) (i : Fin maxSockets) (seg : Segment) :
    (tcpInputAt n i seg).slot = Function.update n.slot i (tcpStep (n.slot i) seg) := by
  have hself : n.slot = Function.update n.slot i (n.slot i) := (Function.update_eq_self _ _).symm
  unfold tcpInputAt tcpStep
  by_cases hrst : seg.flags &&& tcpFlagRst ≠ 0
  · rw [if_pos hrst, if_pos hrst]
    rfl
  rw [if_neg hrst, if_neg hrst]
  by_cases hsyn : (n.slot i).tcpState = .synSent
  · rw [if_pos hsyn, if_pos hsyn]
    split
    · rw [slot_tcpSendPacket]
      rfl
    · exact hself
  rw [if_neg hsyn, if_neg hsyn]
  by_cases hest : (n.slot i).tcpState = .established ∨ (n.slot i).tcpState = .finWait1 ∨
      (n.slot i).tcpState = .finWait2
  · rw [if_pos hest, if_pos hest]
    by_cases hdata : 0 < seg.payload.length ∧ (n.slot i).rxStreamBuf = true
    · rw [if_pos hdata, if_pos hdata]
      dsimp only
      split
      · rw [Net.slot_setSlot, slot_tcpSendPacket, slot_tcpSendPacket, Net.slot_setSlot,
          Function.update_idem]
      · rw [slot_tcpSendPacket, Net.slot_setSlot]
    · rw [if_neg hdata, if_neg hdata]
      dsimp only
      split
      · rw [Net.slot_setSlot, slot_tcpSendPacket]
      · exact hself
  · rw [if_neg hest, if_neg hest]
    exact hself

/-- What a segment does to a slot. -/
theorem slot_socketTcpInput (n : Net) (seg : Segment) (i : Fin maxSockets) :
    (socketTcpInput n seg).slot i =
      if tcpSlot n seg = some i then tcpStep (n.slot i) seg else n.slot i := by
  unfold socketTcpInput
  cases hslot : tcpSlot n seg with
  | none => rfl
  | some j =>
      dsimp only
      rw [slot_tcpInputAt]
      by_cases hij : i = j
      · subst hij
        rw [Function.update_self, if_pos rfl]
      · rw [Function.update_of_ne hij, if_neg fun he => hij (Option.some.inj he).symm]

/-- A segment goes to the first slot that matches. -/
theorem tcpSlot_eq_some (h : tcpSlot n seg = some i) :
    tcpMatch (n.slot i) seg = true ∧ ∀ j, j < i → tcpMatch (n.slot j) seg = false := by
  unfold tcpSlot at h
  rw [List.find?_eq_some_iff_append] at h
  obtain ⟨hi, as, bs, heq, hfirst⟩ := h
  refine ⟨hi, fun j hj => ?_⟩
  -- the list of all slots is ascending, so `j` is in front of `i`
  have hsorted : (List.finRange maxSockets).Pairwise (· < ·) := List.pairwise_lt_finRange _
  have hmem : j ∈ as ++ i :: bs := heq ▸ List.mem_finRange j
  rw [heq, List.pairwise_append] at hsorted
  rcases List.mem_append.mp hmem with hin | hin
  · simpa using hfirst j hin
  · rcases List.mem_cons.mp hin with rfl | hin
    · exact absurd hj (Fin.lt_irrefl _)
    · have hlt := (List.pairwise_cons.mp hsorted.2.1).1 j hin
      exact absurd (Fin.lt_trans hj hlt) (Fin.lt_irrefl _)

theorem tcpSlot_eq_none (h : tcpSlot n seg = none) (j : Fin maxSockets) :
    tcpMatch (n.slot j) seg = false := by
  unfold tcpSlot at h
  rw [List.find?_eq_none] at h
  simpa using h j (List.mem_finRange j)

theorem tcpSlot_isSome (h : tcpMatch (n.slot i) seg = true) : ∃ j, tcpSlot n seg = some j := by
  cases hslot : tcpSlot n seg with
  | some j => exact ⟨j, rfl⟩
  | none =>
      rw [tcpSlot_eq_none hslot i] at h
      cases h

end Slots

theorem freeSlot_refCount {n : Net} {i : Fin maxSockets} (h : freeSlot n = some i) :
    (n.slot i).refCount = 0 := by
  simpa using List.find?_some h

/-- `sock_create` fails without a trace, or takes a slot that is free. -/
theorem sockCreate_cases (n : Net) (domain type protocol : Nat) :
    sockCreate n domain type protocol = (n, none) ∨
      ∃ i, (n.slot i).refCount = 0 ∧ (sockCreate n domain type protocol).2 = some i ∧
        (sockCreate n domain type protocol).1.slot = Function.update n.slot i
          (openSocket (n.slot i) domain type protocol n.ephemeral) := by
  unfold sockCreate
  split
  · exact .inl rfl
  · cases hf : freeSlot n with
    | none => exact .inl rfl
    | some i => exact .inr ⟨i, freeSlot_refCount hf, rfl, rfl⟩

/-- The states in which a socket takes data and a FIN. -/
def Socket.streaming (s : Socket) : Bool :=
  s.tcpState = .established ∨ s.tcpState = .finWait1 ∨ s.tcpState = .finWait2

/-- Does the socket take the payload of the segment? -/
def Socket.takes (s : Socket) (seg : Segment) : Bool :=
  seg.flags &&& tcpFlagRst = 0 ∧ s.streaming ∧ 0 < seg.payload.length ∧ s.rxStreamBuf

/-- Does the socket take the FIN of the segment? -/
def Socket.takesFin (s : Socket) (seg : Segment) : Bool :=
  seg.flags &&& tcpFlagRst = 0 ∧ s.streaming ∧ seg.flags &&& tcpFlagFin ≠ 0

/-- Is the segment the answer a connecting socket waits for? -/
def Socket.connects (s : Socket) (seg : Segment) : Bool :=
  seg.flags &&& tcpFlagRst = 0 ∧ s.tcpState = .synSent ∧
    seg.flags &&& (tcpFlagSyn ||| tcpFlagAck) = tcpFlagSyn ||| tcpFlagAck

/-- Everything a segment can do to the socket it was taken for. -/
theorem tcpStep_cases (s : Socket) (seg : Segment) :
    (seg.flags &&& tcpFlagRst ≠ 0 ∧ tcpStep s seg = { s with tcpState := .closed, error := 104 }) ∨
      (s.connects seg ∧ tcpStep s seg = { s with
        remoteSeq := u32 (seg.seq + 1), localSeq := seg.ack, remoteWindow := seg.window
        tcpState := .established }) ∨
      (s.takes seg ∧ ¬s.takesFin seg ∧ tcpStep s seg = tcpData s seg.payload) ∨
      (s.takes seg ∧ s.takesFin seg ∧ tcpStep s seg = tcpFin (tcpData s seg.payload)) ∨
      (¬s.takes seg ∧ s.takesFin seg ∧ tcpStep s seg = tcpFin s) ∨
      (seg.flags &&& tcpFlagRst = 0 ∧ ¬s.connects seg ∧ ¬s.takes seg ∧ ¬s.takesFin seg ∧
        tcpStep s seg = s) := by
  unfold tcpStep Socket.takes Socket.takesFin Socket.connects Socket.streaming
  simp only [decide_eq_true_eq]
  by_cases hrst : seg.flags &&& tcpFlagRst = 0
  · rw [if_neg (not_not.mpr hrst)]
    by_cases hsyn : s.tcpState = .synSent
    · rw [if_pos hsyn]
      split
      · rename_i hflags
        exact .inr (.inl ⟨⟨hrst, hsyn, hflags⟩, rfl⟩)
      · rename_i hflags
        refine .inr (.inr (.inr (.inr (.inr ⟨hrst, fun h => hflags h.2.2, ?_, ?_, rfl⟩))))
        · simp [hsyn]
        · simp [hsyn]
    rw [if_neg hsyn]
    by_cases hest : s.tcpState = .established ∨ s.tcpState = .finWait1 ∨ s.tcpState = .finWait2
    · rw [if_pos hest]
      by_cases hfin : seg.flags &&& tcpFlagFin ≠ 0
      · simp only [if_pos hfin]
        split
        · rename_i hdata
          exact .inr (.inr (.inr (.inl ⟨⟨hrst, hest, hdata⟩, ⟨hrst, hest, hfin⟩, rfl⟩)))
        · rename_i hdata
          exact .inr (.inr (.inr (.inr (.inl
            ⟨fun h => hdata h.2.2, ⟨hrst, hest, hfin⟩, rfl⟩))))
      · simp only [if_neg hfin]
        split
        · rename_i hdata
          exact .inr (.inr (.inl ⟨⟨hrst, hest, hdata⟩, fun h => hfin h.2.2, rfl⟩))
        · rename_i hdata
          exact .inr (.inr (.inr (.inr (.inr
            ⟨hrst, fun h => hsyn h.2.1, fun h => hdata h.2.2, fun h => hfin h.2.2, rfl⟩))))
    · rw [if_neg hest]
      exact .inr (.inr (.inr (.inr (.inr
        ⟨hrst, fun h => hsyn h.2.1, fun h => hest h.2.1, fun h => hest h.2.1, rfl⟩))))
  · rw [if_pos hrst]
    exact .inl ⟨hrst, rfl⟩

theorem tcpStep_type (s : Socket) (seg : Segment) : (tcpStep s seg).type = s.type := by
  rcases tcpStep_cases s seg with ⟨_, he⟩ | ⟨_, he⟩ | ⟨_, _, he⟩ | ⟨_, _, he⟩ | ⟨_, _, he⟩ |
    ⟨_, _, _, _, he⟩ <;> rw [he] <;> rfl

theorem tcpStep_refCount (s : Socket) (seg : Segment) : (tcpStep s seg).refCount = s.refCount := by
  rcases tcpStep_cases s seg with ⟨_, he⟩ | ⟨_, he⟩ | ⟨_, _, he⟩ | ⟨_, _, he⟩ | ⟨_, _, he⟩ |
    ⟨_, _, _, _, he⟩ <;> rw [he] <;> rfl

/-! ## A connection -/

/-- A slot that was never used. -/
def idleSocket : Socket :=
  { domain := 0, type := 0, protocol := 0, state := 0, localIp := 0, localPort := 0, remoteIp := 0
    remotePort := 0, tcpState := .closed, localSeq := 0, remoteSeq := 0, remoteWindow := 0
    finReceived := false, rxStreamBuf := false, rx := ⟨fun _ => 0, 0, 0, 0⟩
    dgram := ⟨fun _ => ⟨0, 0, []⟩, 0, 0, 0⟩, nonblocking := false, error := 0, refCount := 0 }

/-- The table at boot, on a network that takes every packet. -/
def bootNet : Net :=
  { slot := fun _ => idleSocket, ephemeral := 49152, sent := [], tries := 0, link := fun _ => true }

/-- A segment of the peer `9:80` to the first automatic port. -/
def peerSegment (flags seq : Nat) (payload : List UInt8) : Segment :=
  { srcIp := 9, srcPort := 80, dstPort := 49152, seq := seq, ack := 5015201, flags := flags
    window := 65535, payload := payload }

def dataSegment (seq : Nat) (payload : List UInt8) : Segment := peerSegment tcpFlagAck seq payload

/-- One socket in slot 0, connected to `9:80`, whose peer starts at 500. -/
def connectedNet : Net :=
  socketTcpInput (sockConnect (sockCreate bootNet afInet sockStream 0).1 0 9 80).1
    (peerSegment (tcpFlagSyn ||| tcpFlagAck) 500 [])

end LiteBSD
