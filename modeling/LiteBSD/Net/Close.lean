/-
# `LiteBSD.Net.Close` — the FIN of a connection

`close`, `shutdown` and the exit of a task all end in `sock_close`, which
sends a FIN if the socket is ESTABLISHED and gives the slot back in any case.
Nothing else of `socket.c` sends a FIN, and once the slot is given back no
segment finds it again.  So a connection that was closed here has sent one
FIN exactly if the FIRST close found it ESTABLISHED and the packet got out;
a FIN of the peer that was there before moves the socket to CLOSE_WAIT, and
`sock_close` then sends nothing.
-/
import LiteBSD.Net.Steps

namespace LiteBSD

open Lib

def Packet.isFin : Packet → Bool
  | .tcp _ _ _ _ _ flags _ => flags &&& tcpFlagFin ≠ 0
  | _ => false

/-- How many FINs went out. -/
def finsSent (n : Net) : Nat := n.sent.countP Packet.isFin

/-- The network, and what has happened to slot `i`: was it ESTABLISHED, was
it closed, how many FINs has it sent? -/
structure CloseState where
  net : Net
  opened : Bool
  closed : Bool
  fins : Nat

/-- What can be done to an open stream socket.  `others` is whatever the
other sockets do. -/
inductive CloseEvent where
  | deliver (seg : Segment)
  | recv (len : Nat)
  | send (buf : List UInt8) (ip port : Nat)
  | bind (ip port : Nat)
  | listen
  | connect (ip port : Nat)
  | connectAgain
  | connectDone
  | close
  | others (net : Net)

/-- The network after the event. -/
def CloseEvent.run (i : Fin maxSockets) (n : Net) : CloseEvent → Net
  | .deliver seg => socketTcpInput n seg
  | .recv len => (sockRecvfrom n i len).1
  | .send buf ip port => (sockSendto n i buf ip port).1
  | .bind ip port => (sockBind n i ip port).1
  | .listen => (sockListen n i).1
  | .connect ip port => (sockConnect n i ip port).1
  | .connectAgain => LiteBSD.connectAgain n i
  | .connectDone => (LiteBSD.connectDone n i).1
  | .close => (sockClose n i).1
  | .others net => net

/-- No RST comes for the socket, and what the others do leaves its slot
alone: it is not handed out again. -/
def CloseEvent.Allowed (i : Fin maxSockets) (n : Net) : CloseEvent → Prop
  | .deliver seg => tcpSlot n seg = some i → seg.flags &&& tcpFlagRst = 0
  | .others net => net.slot i = n.slot i
  | _ => True

def CloseEvent.sentFins (i : Fin maxSockets) (n : Net) : CloseEvent → Nat
  | .others _ => 0
  | e => finsSent (e.run i n) - finsSent n

def closeStep (i : Fin maxSockets) (st : CloseState) (e : CloseEvent) : CloseState :=
  { net := e.run i st.net
    opened := st.opened || ((e.run i st.net).slot i).tcpState = .established
    closed := st.closed || (match e with | .close => true | _ => false)
    fins := st.fins + e.sentFins i st.net }

/-- A stream socket in use that has not been closed. -/
def closeSystem (i : Fin maxSockets) : System CloseState CloseEvent where
  init := fun st => (st.net.slot i).type = sockStream ∧ (st.net.slot i).refCount ≠ 0 ∧
    st.opened = decide ((st.net.slot i).tcpState = .established) ∧ st.closed = false ∧ st.fins = 0
  step := fun st e st' => e.Allowed i st.net ∧ st' = closeStep i st e

/-- A connection that was closed has sent one FIN. -/
def OneFin (st : CloseState) : Prop :=
  st.opened = true → st.closed = true → st.fins = 1

/-- The first close of a connection finds it ESTABLISHED, and the packet gets
out. -/
def ClosedEstablished (i : Fin maxSockets) (st : CloseState) : CloseEvent → Prop
  | .close => st.opened = true → st.closed = false →
      (st.net.slot i).tcpState = .established ∧ st.net.link st.net.tries = true
  | _ => True

/-- Before the close nothing has been sent; after it the slot is free and the
socket does not get back to ESTABLISHED. -/
structure CloseInv (i : Fin maxSockets) (st : CloseState) : Prop where
  type : (st.net.slot i).type = sockStream
  before : st.closed = false → st.fins = 0
  after : st.closed = true → (st.net.slot i).refCount = 0 ∧ (st.net.slot i).tcpState ≠ .established
  fins : OneFin st

/-! ## Which packets are FINs -/

section Fins

variable {n : Net} {i : Fin maxSockets}

theorem finsSent_transmit (n : Net) (p : Packet) :
    finsSent (n.transmit p).1 =
      finsSent n + if n.link n.tries = true ∧ p.isFin = true then 1 else 0 := by
  unfold finsSent Net.transmit
  by_cases hlink : n.link n.tries = true
  · rw [if_pos hlink, List.countP_append, List.countP_singleton]
    simp only [hlink, true_and]
  · rw [if_neg hlink, if_neg fun h => hlink h.1]
    rfl

theorem finsSent_tcpSendPacket (n : Net) (s : Socket) {flags : Nat} (payload : List UInt8)
    (h : flags &&& tcpFlagFin = 0) : finsSent (tcpSendPacket n s flags payload).1 = finsSent n := by
  unfold tcpSendPacket
  rw [finsSent_transmit, if_neg]
  · rfl
  · simp [tcpPacket, Packet.isFin, h]

@[simp] theorem finsSent_setSlot (n : Net) (i : Fin maxSockets) (s : Socket) :
    finsSent (n.setSlot i s) = finsSent n := rfl

theorem finsSent_sendChunks (len fuel : Nat) (n : Net) (rest : List UInt8) :
    finsSent (sendChunks n i len fuel rest).1 = finsSent n := by
  induction fuel generalizing n rest with
  | zero => rfl
  | succ fuel ih =>
      have hsend (s : Socket) (chunk : List UInt8) :
          finsSent (tcpSendPacket n s (tcpFlagAck ||| tcpFlagPsh) chunk).1 = finsSent n :=
        finsSent_tcpSendPacket n s chunk (by decide)
      rw [sendChunks]
      split
      · rfl
      dsimp only
      split
      · exact hsend _ _
      · rw [ih, finsSent_setSlot, hsend]

theorem finsSent_sockSendto (n : Net) (buf : List UInt8) (ip port : Nat) :
    finsSent (sockSendto n i buf ip port).1 = finsSent n := by
  unfold sockSendto
  dsimp only
  split
  · rfl
  split
  · split
    · rfl
    · exact finsSent_sendChunks _ _ _ _
  split
  · split
    · rfl
    · rw [finsSent_transmit, if_neg (by simp [Packet.isFin])]
      rfl
  split
  · split
    · rfl
    · rw [finsSent_transmit, if_neg (by simp [Packet.isFin])]
      rfl
  · rfl

theorem finsSent_sockRecvfrom (n : Net) (len : Nat) :
    finsSent (sockRecvfrom n i len).1 = finsSent n := by
  unfold sockRecvfrom
  dsimp only
  split
  · rfl
  split
  · split <;> rfl
  split <;> rfl

theorem finsSent_socketTcpInput (n : Net) (seg : Segment) :
    finsSent (socketTcpInput n seg) = finsSent n := by
  have hack (n : Net) (s : Socket) : finsSent (tcpSendPacket n s tcpFlagAck []).1 = finsSent n :=
    finsSent_tcpSendPacket n s [] (by decide)
  unfold socketTcpInput
  split
  · rfl
  unfold tcpInputAt
  dsimp only
  split
  · rfl
  split
  · split
    · rw [hack, finsSent_setSlot]
    · rfl
  split
  · by_cases hdata : 0 < seg.payload.length ∧ (n.slot ‹_›).rxStreamBuf = true
    · simp only [if_pos hdata]
      split
      · rw [finsSent_setSlot, hack, hack, finsSent_setSlot]
      · rw [hack, finsSent_setSlot]
    · simp only [if_neg hdata]
      split
      · rw [finsSent_setSlot, hack]
      · rfl
  · rfl

/-- `sock_close` is the only one that sends a FIN. -/
theorem sentFins_eq_zero {e : CloseEvent} (h : e ≠ .close) : e.sentFins i n = 0 := by
  have hsyn (n : Net) (s : Socket) : finsSent (tcpSendPacket n s tcpFlagSyn []).1 = finsSent n :=
    finsSent_tcpSendPacket n s [] (by decide)
  cases e with
  | deliver seg => exact Nat.sub_eq_zero_of_le (Nat.le_of_eq (finsSent_socketTcpInput n seg))
  | recv len => exact Nat.sub_eq_zero_of_le (Nat.le_of_eq (finsSent_sockRecvfrom n len))
  | send buf ip port =>
      exact Nat.sub_eq_zero_of_le (Nat.le_of_eq (finsSent_sockSendto n buf ip port))
  | bind ip port => exact Nat.sub_self _
  | listen =>
      refine Nat.sub_eq_zero_of_le (Nat.le_of_eq ?_)
      show finsSent (sockListen n i).1 = _
      unfold sockListen
      split <;> rfl
  | connect ip port =>
      refine Nat.sub_eq_zero_of_le (Nat.le_of_eq ?_)
      show finsSent (sockConnect n i ip port).1 = _
      unfold sockConnect
      dsimp only
      split
      · rfl
      split
      · rfl
      · rw [hsyn, finsSent_setSlot]
  | connectAgain =>
      refine Nat.sub_eq_zero_of_le (Nat.le_of_eq ?_)
      show finsSent (connectAgain n i) = _
      unfold connectAgain
      split
      · exact hsyn _ _
      · rfl
  | connectDone =>
      refine Nat.sub_eq_zero_of_le (Nat.le_of_eq ?_)
      show finsSent (connectDone n i).1 = _
      unfold connectDone
      dsimp only
      split
      · rfl
      split <;> rfl
  | close => exact absurd rfl h
  | others net => rfl

theorem sentFins_close (htype : (n.slot i).type = sockStream) :
    CloseEvent.close.sentFins i n =
      if (n.slot i).tcpState = .established ∧ n.link n.tries = true then 1 else 0 := by
  show finsSent (sockClose n i).1 - finsSent n = _
  unfold sockClose
  dsimp only
  by_cases hest : (n.slot i).tcpState = .established
  · rw [if_pos ⟨htype, hest⟩, finsSent_setSlot, tcpSendPacket, finsSent_transmit,
      Nat.add_sub_cancel_left]
    simp [hest, tcpPacket, Packet.isFin, tcpFlagAck, tcpFlagFin]
  · rw [if_neg fun h => hest h.2, if_neg fun h => hest h.1]
    exact Nat.sub_self _

end Fins

/-! ## What happens to the slot -/

section Slot

variable {n : Net} {i : Fin maxSockets}

/-- The socket is of the same type and as much in use, and if it was closed
it does not become ESTABLISHED. -/
structure StaysClosed (s s' : Socket) : Prop where
  type : s'.type = s.type
  refCount : s'.refCount = s.refCount
  state : s.refCount = 0 → s.tcpState ≠ .established → s'.tcpState ≠ .established

theorem StaysClosed.of_eq {s s' : Socket} (htype : s'.type = s.type)
    (href : s'.refCount = s.refCount) (hstate : s'.tcpState = s.tcpState) : StaysClosed s s' :=
  ⟨htype, href, fun _ hs h => hs (hstate.symm.trans h)⟩

theorem StaysClosed.refl (s : Socket) : StaysClosed s s := .of_eq rfl rfl rfl

theorem StaysClosed.trans {s s' s'' : Socket} (h : StaysClosed s s') (h' : StaysClosed s' s'') :
    StaysClosed s s'' :=
  ⟨h'.type.trans h.type, h'.refCount.trans h.refCount,
    fun href hs => h'.state (h.refCount.trans href) (h.state href hs)⟩

/-- Nothing but the slot `i` has changed, and that stays closed. -/
def Confined (i : Fin maxSockets) (n n' : Net) : Prop :=
  ∃ s, n'.slot = Function.update n.slot i s ∧ StaysClosed (n.slot i) s

theorem Confined.of_same {n n' : Net} (h : n'.slot = n.slot) : Confined i n n' :=
  ⟨n.slot i, by rw [h, Function.update_eq_self], .refl _⟩

theorem Confined.setSlot {n : Net} {s : Socket} (h : StaysClosed (n.slot i) s) :
    Confined i n (n.setSlot i s) := ⟨s, rfl, h⟩

theorem Confined.trans {n n' n'' : Net} (h : Confined i n n') (h' : Confined i n' n'') :
    Confined i n n'' := by
  obtain ⟨s, hs, hstay⟩ := h
  obtain ⟨s', hs', hstay'⟩ := h'
  rw [hs, Function.update_self] at hstay'
  exact ⟨s', by rw [hs', hs, Function.update_idem], hstay.trans hstay'⟩

theorem Confined.staysClosed {n n' : Net} (h : Confined i n n') :
    StaysClosed (n.slot i) (n'.slot i) := by
  obtain ⟨s, hs, hstay⟩ := h
  rwa [hs, Function.update_self]

/-- Sending moves the sequence number of the socket, nothing else. -/
theorem confined_sendChunks (len fuel : Nat) (n : Net) (rest : List UInt8) :
    Confined i n (sendChunks n i len fuel rest).1 := by
  induction fuel generalizing n rest with
  | zero => exact .of_same rfl
  | succ fuel ih =>
      rw [sendChunks]
      split
      · exact .of_same rfl
      dsimp only
      split
      · exact .of_same (slot_tcpSendPacket _ _ _ _)
      · refine Confined.trans ?_ (ih _ _)
        refine Confined.trans (.of_same (slot_tcpSendPacket n _ _ _)) (.setSlot ?_)
        exact .of_eq rfl rfl rfl

theorem confined_sockSendto (n : Net) (buf : List UInt8) (ip port : Nat) :
    Confined i n (sockSendto n i buf ip port).1 := by
  unfold sockSendto
  dsimp only
  split
  · exact .of_same rfl
  split
  · split
    · exact .of_same rfl
    · exact confined_sendChunks _ _ _ _
  split
  · split
    · exact .of_same rfl
    · exact .of_same (Net.slot_transmit _ _)
  split
  · split
    · exact .of_same rfl
    · exact .of_same (Net.slot_transmit _ _)
  · exact .of_same rfl

theorem confined_sockRecvfrom (n : Net) (len : Nat) :
    Confined i n (sockRecvfrom n i len).1 := by
  unfold sockRecvfrom
  dsimp only
  split
  · exact .of_same rfl
  split
  · split
    · exact .of_same rfl
    · exact .setSlot (.of_eq rfl rfl rfl)
  split
  · exact .of_same rfl
  · exact .setSlot (.of_eq rfl rfl rfl)

theorem confined_sockConnect (n : Net) (ip port : Nat) :
    Confined i n (sockConnect n i ip port).1 := by
  unfold sockConnect
  dsimp only
  split
  · exact .setSlot (.of_eq rfl rfl rfl)
  split
  · exact .setSlot (.of_eq rfl rfl rfl)
  · refine Confined.trans ?_ (.of_same (slot_tcpSendPacket _ _ _ _))
    exact .setSlot ⟨rfl, rfl, fun _ _ => nofun⟩

/-- A slot that is free gets no segment. -/
theorem staysClosed_socketTcpInput (n : Net) (seg : Segment) (i : Fin maxSockets) :
    StaysClosed (n.slot i) ((socketTcpInput n seg).slot i) := by
  rw [slot_socketTcpInput]
  split
  · rename_i hslot
    refine ⟨tcpStep_type _ seg, tcpStep_refCount _ seg, fun href _ => ?_⟩
    have hmatch := (tcpSlot_eq_some hslot).1
    simp [tcpMatch, href] at hmatch
  · exact .refl _

/-- The calls on an open socket. -/
def CloseEvent.isCall : CloseEvent → Bool
  | .deliver _ | .close | .others _ => false
  | _ => true

theorem confined_run {e : CloseEvent} (h : e.isCall) : Confined i n (e.run i n) := by
  cases e with
  | recv len => exact confined_sockRecvfrom n len
  | send buf ip port => exact confined_sockSendto n buf ip port
  | bind ip port => exact .setSlot (.of_eq rfl rfl rfl)
  | listen =>
      show Confined i n (sockListen n i).1
      unfold sockListen
      split
      · exact .of_same rfl
      · exact .setSlot ⟨rfl, rfl, fun _ _ => nofun⟩
  | connect ip port => exact confined_sockConnect n ip port
  | connectAgain =>
      show Confined i n (connectAgain n i)
      unfold connectAgain
      split
      · exact .of_same (slot_tcpSendPacket _ _ _ _)
      · exact .of_same rfl
  | connectDone =>
      show Confined i n (connectDone n i).1
      unfold connectDone
      dsimp only
      split
      · exact .of_same rfl
      split
      · exact .of_same rfl
      · exact .setSlot ⟨rfl, rfl, fun _ _ => nofun⟩
  | deliver seg => cases h
  | close => cases h
  | others net => cases h

theorem staysClosed_run {e : CloseEvent} (h : e ≠ .close) (hallowed : e.Allowed i n) :
    StaysClosed (n.slot i) ((e.run i n).slot i) := by
  cases hcall : e.isCall with
  | true => exact (confined_run hcall).staysClosed
  | false =>
      cases e with
      | deliver seg => exact staysClosed_socketTcpInput n seg i
      | close => exact absurd rfl h
      | others net =>
          show StaysClosed _ (net.slot i)
          rw [show net.slot i = n.slot i from hallowed]
          exact .refl _
      | _ => cases hcall

/-- `sock_close` gives the slot back, and the socket is not ESTABLISHED. -/
theorem slot_sockClose (htype : (n.slot i).type = sockStream) :
    ((sockClose n i).1.slot i).type = sockStream ∧
      ((sockClose n i).1.slot i).refCount = 0 ∧
      ((sockClose n i).1.slot i).tcpState ≠ .established := by
  unfold sockClose
  dsimp only
  split
  · rw [Net.slot_setSlot, Function.update_self]
    exact ⟨htype, rfl, nofun⟩
  · rename_i hnot
    rw [Net.slot_setSlot, Function.update_self]
    exact ⟨htype, rfl, fun h => hnot ⟨htype, h⟩⟩

end Slot

/-! ## Runs -/

section Run

variable {i : Fin maxSockets} {st : CloseState}

theorem CloseInv.of_init (h : (closeSystem i).init st) : CloseInv i st := by
  obtain ⟨htype, _, _, hclosed, hfins⟩ := h
  refine ⟨htype, fun _ => hfins, fun h => ?_, fun _ h => ?_⟩
  · rw [hclosed] at h
    cases h
  · rw [hclosed] at h
    cases h

/-- Once the socket is closed, `opened` does not change any more. -/
theorem opened_closeStep {e : CloseEvent}
    (h : ((e.run i st.net).slot i).tcpState ≠ .established) :
    (closeStep i st e).opened = st.opened := by
  simp [closeStep, h]

/-- Every step but a close keeps the invariant. -/
theorem CloseInv.step_other (h : CloseInv i st) {e : CloseEvent} (he : e ≠ .close)
    (hallowed : e.Allowed i st.net) : CloseInv i (closeStep i st e) := by
  have hstays := staysClosed_run he hallowed
  have hclosed : (closeStep i st e).closed = st.closed := by
    cases e <;> first | exact absurd rfl he | exact Bool.or_false _
  have hfins : (closeStep i st e).fins = st.fins := by
    simp [closeStep, sentFins_eq_zero he]
  have hstate (hc : st.closed = true) := hstays.state (h.after hc).1 (h.after hc).2
  refine ⟨hstays.type.trans h.type, fun hc => ?_, fun hc => ?_, fun ho hc => ?_⟩
  · rw [hclosed] at hc
    rw [hfins, h.before hc]
  · rw [hclosed] at hc
    exact ⟨hstays.refCount.trans (h.after hc).1, hstate hc⟩
  · rw [hclosed] at hc
    rw [opened_closeStep (hstate hc)] at ho
    rw [hfins, h.fins ho hc]

/-- The FINs after a close. -/
theorem fins_close (h : CloseInv i st) :
    OneFin (closeStep i st .close) ↔ ClosedEstablished i st .close := by
  obtain ⟨_, _, hstate⟩ := slot_sockClose h.type
  have hopened : (closeStep i st .close).opened = st.opened := opened_closeStep hstate
  have hclosed : (closeStep i st .close).closed = true := Bool.or_true _
  have hfins : (closeStep i st .close).fins = st.fins +
      if (st.net.slot i).tcpState = .established ∧ st.net.link st.net.tries = true then 1 else 0 := by
    rw [← sentFins_close h.type]
    rfl
  unfold OneFin ClosedEstablished
  rw [hopened, hclosed, hfins]
  refine forall_congr' fun ho => ?_
  cases hc : st.closed with
  | false =>
      rw [h.before hc, Nat.zero_add]
      split <;> simp_all
  | true =>
      -- the second close finds a socket that is not ESTABLISHED
      rw [h.fins ho hc, if_neg fun hest => (h.after hc).2 hest.1]
      simp

theorem CloseInv.step (h : CloseInv i st) {e : CloseEvent} (hg : ClosedEstablished i st e)
    (hallowed : e.Allowed i st.net) : CloseInv i (closeStep i st e) := by
  by_cases he : e = .close
  · subst he
    obtain ⟨htype, hafter⟩ := slot_sockClose h.type
    refine ⟨htype, fun hc => ?_, fun _ => hafter, (fins_close h).mpr hg⟩
    simp [closeStep] at hc
  · exact h.step_other he hallowed

theorem oneFin_iff (h : CloseInv i st) {e : CloseEvent} (hallowed : e.Allowed i st.net) :
    OneFin (closeStep i st e) ↔ ClosedEstablished i st e := by
  by_cases he : e = .close
  · subst he
    exact fins_close h
  · refine iff_of_true (h.step_other he hallowed).fins ?_
    cases e <;> first | exact absurd rfl he | trivial

end Run

/-- Along any run of a stream socket, a connection that was closed here has
sent exactly one FIN if and only if the first close found it ESTABLISHED and
the packet got out. -/
theorem one_fin_iff (i : Fin maxSockets)
    {tr : List (CloseState × CloseEvent × CloseState)} {st : CloseState}
    (h : (closeSystem i).Trace tr st) :
    (∀ x ∈ tr, OneFin x.2.2) ↔ ∀ x ∈ tr, ClosedEstablished i x.1 x.2.1 := by
  refine System.Trace.good_iff_guarded (I := CloseInv i) (P := fun _ _ st' => OneFin st')
    (fun _ => CloseInv.of_init) ?_ ?_ h
  · rintro st e st' hi hg ⟨hallowed, rfl⟩
    exact hi.step hg hallowed
  · rintro st e st' hi ⟨hallowed, rfl⟩
    exact oneFin_iff hi hallowed

/-- A connection that is shut down and then closed. -/
theorem fin_of_shutdown_and_close : ∃ tr st, (closeSystem 0).Trace tr st ∧ tr.length = 2 ∧
    st.opened = true ∧ st.closed = true ∧
    ((∀ x ∈ tr, OneFin x.2.2) ↔ ∀ x ∈ tr, ClosedEstablished 0 x.1 x.2.1) := by
  have h₀ := System.Trace.nil (S := closeSystem 0) (s := ⟨connectedNet, true, false, 0⟩)
    ⟨by decide, by decide, by decide, rfl, rfl⟩
  have h₁ := h₀.snoc (e := CloseEvent.close) ⟨trivial, rfl⟩
  have h₂ := h₁.snoc (e := CloseEvent.close) ⟨trivial, rfl⟩
  exact ⟨_, _, h₂, rfl, by decide, by decide, one_fin_iff 0 h₂⟩

/-- The FIN of the peer comes first: the socket is closed without one. -/
theorem close_after_fin : ¬∀ i tr st, (closeSystem i).Trace tr st → ∀ x ∈ tr, OneFin x.2.2 := by
  intro hall
  have h₀ := System.Trace.nil (S := closeSystem 0) (s := ⟨connectedNet, true, false, 0⟩)
    ⟨by decide, by decide, by decide, rfl, rfl⟩
  have h₁ := h₀.snoc (e := CloseEvent.deliver (peerSegment (tcpFlagAck ||| tcpFlagFin) 501 []))
    ⟨fun _ => by decide, rfl⟩
  have h₂ := h₁.snoc (e := CloseEvent.close) ⟨trivial, rfl⟩
  have hone := hall 0 _ _ h₂ _ List.mem_cons_self
  exact absurd (hone (by decide) (by decide)) (by decide)

end LiteBSD
