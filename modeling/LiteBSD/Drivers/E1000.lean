/-
# `LiteBSD.Drivers.E1000` — the receive ring of the network card

The receiving half of `src/drivers/e1000.c`: 32 descriptors, each with a buffer
of 2048 bytes.  The card fills the descriptor at its head register and sets the
`DD` bit in it, as long as the head has not come to the tail register.
`e1000_poll_rx` takes the descriptors in turn while the bit is set, and then
moves the tail up behind the card.

The card may fill descriptors between any two loads and stores of a poll.  And a
poll can begin inside another one: `netdev_rx_packet` may end up in `dev->poll`
again, and so does the interrupt of the card, when interrupts are on.  So there is
a stack of polls (`polls`), of which the latest goes on.

    polls one at a time     whatever the card does meanwhile, what the stack is
                            handed is what the card has stored, in order
                            (`receive_ring_fifo`)
    a poll within a poll    `LiteBSD.Drivers.Interrupted`

What the card does is all that is assumed of it: it fills the descriptor at the
head, in one go, with a frame that fits, and never when head and tail are equal.
-/
import LiteBSD.Lib.Slots
import LiteBSD.Lib.Runs
import LiteBSD.Net.Delivery

namespace LiteBSD.E1000

open Lib

def numRxDesc : Nat := 32
def rxBufferSize : Nat := 2048

/-- `struct e1000_rx_desc`; `addr` is that of the buffer with the same number. -/
structure RxDesc where
  length : Nat
  status : UInt8
deriving DecidableEq, Repr

/-- The `DD` bit. -/
def RxDesc.done (d : RxDesc) : Bool := d.status &&& 1 != 0

/-- The statics of the receive side, and the head and tail registers. -/
structure RxRing where
  descs : Nat → RxDesc
  buffers : Nat → Nat → UInt8
  rxCur : Nat
  rdh : Nat
  rdt : Nat

/-- How far a call of `e1000_poll_rx` has come. -/
inductive Poll where
  /-- about to look at the descriptor -/
  | test
  /-- about to load the length -/
  | length (cur : Nat)
  /-- in `netdev_rx_packet` -/
  | hand (cur len : Nat)
  /-- about to clear the status -/
  | clear (cur : Nat)
  /-- about to store `s_rx_cur` -/
  | next (cur : Nat)
  /-- about to write the tail register -/
  | giveBack (cur : Nat)
deriving DecidableEq, Repr

/-- The ring, and the polls under way.  For the record: what the card has stored,
and what `netdev_rx_packet` was given. -/
structure Rx where
  ring : RxRing
  polls : List Poll
  stored : List (List UInt8)
  handed : List (List UInt8)

/-- The frame in a buffer, by its descriptor. -/
def RxRing.frame (r : RxRing) (k : Nat) : List UInt8 := slice (r.buffers k) 0 (r.descs k).length

/-- The next load or store of the latest poll. -/
def Rx.advance (w : Rx) : Rx :=
  match w.polls with
  | [] => w
  | .test :: rest =>
      { w with polls := if (w.ring.descs w.ring.rxCur).done then .length w.ring.rxCur :: rest else rest }
  | .length cur :: rest =>
      let len := (w.ring.descs cur).length
      if 0 < len then
        { w with polls := .hand cur len :: rest, handed := w.handed ++ [slice (w.ring.buffers cur) 0 len] }
      else { w with polls := .clear cur :: rest }
  | .hand cur _ :: rest => { w with polls := .clear cur :: rest }
  | .clear cur :: rest =>
      { w with
        ring.descs := Function.update w.ring.descs cur { w.ring.descs cur with status := 0 }
        polls := .next cur :: rest }
  | .next cur :: rest => { w with ring.rxCur := (cur + 1) % numRxDesc, polls := .giveBack cur :: rest }
  | .giveBack cur :: rest => { w with ring.rdt := cur, polls := .test :: rest }

/-- The card stores a frame. -/
def RxRing.store (r : RxRing) (frame : List UInt8) (status : UInt8) : RxRing :=
  { r with
    descs := Function.update r.descs r.rdh ⟨frame.length, status⟩
    buffers := Function.update r.buffers r.rdh (overwrite (r.buffers r.rdh) 0 frame)
    rdh := (r.rdh + 1) % numRxDesc }

inductive RxEvent where
  /-- the card stores a frame -/
  | store (frame : List UInt8) (status : UInt8)
  /-- `e1000_poll_rx` is called -/
  | poll
  /-- the latest poll goes on -/
  | advance
deriving DecidableEq, Repr

def Rx.next (w : Rx) : RxEvent → Rx
  | .store frame status => { w with ring := w.ring.store frame status, stored := w.stored ++ [frame] }
  | .poll => { w with polls := .test :: w.polls }
  | .advance => w.advance

/-- When the card may store a frame. -/
def RxRing.accepts (r : RxRing) (frame : List UInt8) (status : UInt8) : Prop :=
  r.rdh ≠ r.rdt ∧ 0 < frame.length ∧ frame.length ≤ rxBufferSize ∧ status &&& 1 ≠ 0

instance (r : RxRing) (frame : List UInt8) (status : UInt8) : Decidable (r.accepts frame status) :=
  inferInstanceAs (Decidable (_ ∧ _))

/-- What the card may do. -/
def RxEvent.Possible (w : Rx) : RxEvent → Prop
  | .store frame status => w.ring.accepts frame status
  | _ => True

/-- `e1000_init` has run. -/
structure RxBoot (w : Rx) : Prop where
  status : ∀ k < numRxDesc, (w.ring.descs k).status = 0
  rxCur : w.ring.rxCur = 0
  rdh : w.ring.rdh = 0
  rdt : w.ring.rdt = numRxDesc - 1
  polls : w.polls = []
  stored : w.stored = []
  handed : w.handed = []

def rxSystem : System Rx RxEvent where
  init := RxBoot
  step w e w' := e.Possible w ∧ w' = w.next e

/-- No poll begins while another is under way. -/
def Alone (w : Rx) (e : RxEvent) : Prop := e = .poll → w.polls = []

/-- What the ring is to be, seen from outside. -/
structure IsFifo (w : Rx) : Prop where
  /-- handed over is what was stored, in order, and nothing twice -/
  inOrder : w.handed = w.stored.take w.handed.length
  /-- the rest is in the ring, which has room for 31 frames -/
  room : w.stored.length ≤ w.handed.length + (numRxDesc - 1)
  /-- while a frame is looked at it stays as it is -/
  intact : ∀ cur len rest, w.polls = .hand cur len :: rest → w.handed.getLast? = some (slice (w.ring.buffers cur) 0 len)
  /-- the next poll finds a frame if there is one -/
  found : w.polls = [] → ((w.ring.descs w.ring.rxCur).done = true ↔ w.handed.length < w.stored.length)
  /-- and goes on until all are handed over -/
  drains : w.polls = [] → ∃ n, (Rx.advance^[n] (w.next .poll)).polls = [] ∧
    (Rx.advance^[n] (w.next .poll)).handed = w.stored
  /-- the card can go on if there is room -/
  refuses : w.polls = [] → (w.ring.rdh = w.ring.rdt ↔ w.stored.length = w.handed.length + (numRxDesc - 1))

/-! ## What a poll has done with its frame -/

namespace Poll

/-- The frame has been handed over. -/
def handed : Poll → Nat
  | test => 0
  | length _ => 0
  | hand .. => 1
  | clear _ => 1
  | next _ => 1
  | giveBack _ => 1

/-- Its status is cleared. -/
def cleared : Poll → Nat
  | next _ => 1
  | giveBack _ => 1
  | _ => 0

/-- `s_rx_cur` is behind it. -/
def moved : Poll → Nat
  | giveBack _ => 1
  | _ => 0

/-- How many of its six steps are done. -/
def rank : Poll → Nat
  | test => 0
  | length _ => 1
  | hand .. => 2
  | clear _ => 3
  | next _ => 4
  | giveBack _ => 5

/-- What a poll knows of the frame number `gone`. -/
def Knows (r : RxRing) (stored : List (List UInt8)) (gone : Nat) : Poll → Prop
  | test => True
  | length cur => cur = gone % numRxDesc ∧ gone < stored.length
  | hand cur len => cur = gone % numRxDesc ∧ gone < stored.length ∧ len = (r.descs cur).length
  | clear cur => cur = gone % numRxDesc ∧ gone < stored.length
  | next cur => cur = gone % numRxDesc ∧ gone < stored.length
  | giveBack cur => cur = gone % numRxDesc ∧ gone < stored.length

end Poll

/-- `gone` frames are behind the poll `p`, which is at the next one. -/
structure RingAt (r : RxRing) (stored : List (List UInt8)) (p : Poll) (gone : Nat) : Prop where
  slots : Slots numRxDesc r.frame (fun k => (r.descs k).done) stored (gone + p.cleared)
  rdh : r.rdh = stored.length % numRxDesc
  rdt : r.rdt = (gone + 31) % numRxDesc
  rxCur : r.rxCur = (gone + p.moved) % numRxDesc
  limit : stored.length ≤ gone + 31
  knows : p.Knows r stored gone
  nonempty : ∀ frame ∈ stored, 0 < frame.length

/-- The poll under way, or one that has not begun. -/
def Rx.current (w : Rx) : Poll := w.polls.headD .test

/-- A state of a run with polls one at a time. -/
structure RxInv (w : Rx) : Prop where
  single : w.polls.length ≤ 1
  at_ : ∃ gone, RingAt w.ring w.stored w.current gone ∧ w.handed = w.stored.take (gone + w.current.handed)

section Steps

variable {w : Rx} {r : RxRing} {stored : List (List UInt8)} {p : Poll} {rest : List Poll} {gone : Nat}
  {frame : List UInt8} {status : UInt8}

theorem done_of_status (h : status &&& 1 ≠ 0) (n : Nat) : (RxDesc.mk n status).done = true := bne_iff_ne.mpr h

theorem not_done_zero (n : Nat) : (RxDesc.mk n 0).done = false := by simp [RxDesc.done]

theorem frame_store (r : RxRing) (frame : List UInt8) (status : UInt8) :
    (r.store frame status).frame = Function.update r.frame r.rdh frame := by
  funext k
  unfold RxRing.frame RxRing.store
  by_cases hk : k = r.rdh
  · subst hk
    simp only [Function.update_self]
    exact slice_of_holds (holdsAt_overwrite _ 0 frame)
  · simp only [Function.update_of_ne hk]

theorem done_store (r : RxRing) (frame : List UInt8) (h : status &&& 1 ≠ 0) :
    (fun k => ((r.store frame status).descs k).done) = Function.update (fun k => (r.descs k).done) r.rdh true := by
  funext k
  unfold RxRing.store
  by_cases hk : k = r.rdh
  · subst hk
    simp only [Function.update_self]
    exact done_of_status h _
  · simp only [Function.update_of_ne hk]

theorem frame_clear (r : RxRing) (k : Nat) :
    ({ r with descs := Function.update r.descs k { r.descs k with status := 0 } } : RxRing).frame = r.frame := by
  funext i
  unfold RxRing.frame
  by_cases hi : i = k
  · subst hi
    simp only [Function.update_self]
  · simp only [Function.update_of_ne hi]

theorem done_clear (r : RxRing) (k : Nat) :
    (fun i => (Function.update r.descs k { r.descs k with status := 0 } i).done) =
      Function.update (fun i => (r.descs i).done) k false := by
  funext i
  by_cases hi : i = k
  · subst hi
    simp only [Function.update_self]
    exact not_done_zero _
  · simp only [Function.update_of_ne hi]

/-- The head register has come to the tail when 31 frames are in the ring. -/
theorem RingAt.refuses_iff (h : RingAt r stored p gone) : r.rdh = r.rdt ↔ stored.length = gone + 31 := by
  have hlimit := h.limit
  have hle := h.slots.gone_le
  rw [h.rdh, h.rdt]
  constructor
  · intro hmod
    have hsame := eq_of_mod_eq hlimit (by show gone + 31 < stored.length + 32; omega) hmod.symm
    omega
  · intro he
    rw [he]

/-- The poll looks at the descriptor of the oldest frame. -/
theorem RingAt.found_iff (h : RingAt r stored .test gone) : (r.descs r.rxCur).done = true ↔ gone < stored.length := by
  have hcur : r.rxCur = gone % numRxDesc := h.rxCur
  rw [hcur]
  exact h.slots.front_iff

/-- What is handed over has been stored. -/
theorem RingAt.handed_le (h : RingAt r stored p gone) : gone + p.handed ≤ stored.length := by
  have hgone := h.slots.gone_le
  have hknows := h.knows
  cases p with
  | test => exact hgone
  | length cur => exact Nat.le_of_lt hknows.2
  | hand cur len => exact hknows.2.1
  | clear cur => exact hknows.2
  | next cur => exact hknows.2
  | giveBack cur => exact hknows.2

/-- A poll is at a frame that has been stored. -/
theorem RingAt.rank_le (h : RingAt r stored p gone) : 6 * gone + p.rank ≤ 6 * stored.length := by
  have hgone := h.slots.gone_le
  have hknows := h.knows
  cases p with
  | test => exact Nat.mul_le_mul_left 6 hgone
  | length cur => have hlt := hknows.2; show 6 * gone + 1 ≤ 6 * stored.length; omega
  | hand cur len => have hlt := hknows.2.1; show 6 * gone + 2 ≤ 6 * stored.length; omega
  | clear cur => have hlt := hknows.2; show 6 * gone + 3 ≤ 6 * stored.length; omega
  | next cur => have hlt := hknows.2; show 6 * gone + 4 ≤ 6 * stored.length; omega
  | giveBack cur => have hlt := hknows.2; show 6 * gone + 5 ≤ 6 * stored.length; omega

/-- The card stores a frame. -/
theorem RingAt.store (h : RingAt r stored p gone) (ha : r.accepts frame status) :
    RingAt (r.store frame status) (stored ++ [frame]) p gone := by
  obtain ⟨hroom, hpos, -, hstatus⟩ := ha
  have hlimit := h.limit
  have hfree : stored.length < gone + 31 := by
    have hne := mt h.refuses_iff.mpr hroom
    omega
  have hslots := h.slots.put (show stored.length < gone + p.cleared + 32 by omega) frame
  rw [← h.rdh] at hslots
  have hlen : stored.length ≤ (stored ++ [frame]).length := by
    rw [List.length_append]
    exact Nat.le_add_right _ _
  refine ⟨?_, ?_, h.rdt, h.rxCur, ?_, ?_, ?_⟩
  · rw [frame_store, done_store _ _ hstatus]
    exact hslots
  · show (r.rdh + 1) % numRxDesc = (stored ++ [frame]).length % numRxDesc
    rw [List.length_append, h.rdh, Nat.mod_add_mod, List.length_singleton]
  · rw [List.length_append, List.length_singleton]
    exact hfree
  · have hknows := h.knows
    cases p with
    | test => trivial
    | length cur => exact ⟨hknows.1, Nat.lt_of_lt_of_le hknows.2 hlen⟩
    | hand cur len =>
        obtain ⟨hcur, hlt, hl⟩ := hknows
        -- the slot of the card is not that of the poll
        have hother : cur ≠ r.rdh := by
          rw [hcur, h.rdh]
          intro he
          have hsame := eq_of_mod_eq (Nat.le_of_lt hlt) (by show stored.length < gone + 32; omega) he.symm
          omega
        refine ⟨hcur, Nat.lt_of_lt_of_le hlt hlen, ?_⟩
        show len = (Function.update r.descs r.rdh _ cur).length
        rw [Function.update_of_ne hother]
        exact hl
    | clear cur => exact ⟨hknows.1, Nat.lt_of_lt_of_le hknows.2 hlen⟩
    | next cur => exact ⟨hknows.1, Nat.lt_of_lt_of_le hknows.2 hlen⟩
    | giveBack cur => exact ⟨hknows.1, Nat.lt_of_lt_of_le hknows.2 hlen⟩
  · intro x hx
    rcases List.mem_append.mp hx with hold | hnew
    · exact h.nonempty x hold
    · obtain rfl := List.mem_singleton.mp hnew
      exact hpos

/-- What the next step of the poll `p` can be.  It finds nothing and returns, or it
goes on to `p'`. -/
structure Advanced (w : Rx) (p : Poll) (rest : List Poll) (gone : Nat) (p' : Poll) (gone' : Nat) : Prop where
  ring : RingAt w.advance.ring w.stored p' gone'
  polls : w.advance.polls = p' :: rest ∧ 6 * gone' + p'.rank = 6 * gone + p.rank + 1 ∨
    p = .test ∧ p' = .test ∧ gone' = gone ∧ w.stored.length ≤ gone ∧ w.advance.polls = rest
  stored : w.advance.stored = w.stored
  handed : w.advance.handed = w.handed ++ (w.stored.drop (gone + p.handed)).take (gone' + p'.handed - (gone + p.handed))
  mono : gone + p.handed ≤ gone' + p'.handed

/-- The latest poll goes on. -/
theorem RingAt.advance (h : RingAt w.ring w.stored p gone) (hpolls : w.polls = p :: rest) :
    ∃ p' gone', Advanced w p rest gone p' gone' := by
  have hsame {n : Nat} (hn : n = gone + p.handed) :
      w.handed = w.handed ++ (w.stored.drop (gone + p.handed)).take (n - (gone + p.handed)) := by
    rw [hn, Nat.sub_self, List.take_zero, List.append_nil]
  cases p with
  | test =>
      by_cases hfound : (w.ring.descs w.ring.rxCur).done = true
      · have hstep : w.advance = { w with polls := .length w.ring.rxCur :: rest } := by
          rw [Rx.advance, hpolls]
          exact congrArg (fun x => { w with polls := x }) (if_pos hfound)
        refine ⟨.length w.ring.rxCur, gone, ?_, .inl ⟨?_, rfl⟩, ?_, ?_, Nat.le_refl _⟩
        all_goals rw [hstep]
        · exact ⟨h.slots, h.rdh, h.rdt, h.rxCur, h.limit, ⟨h.rxCur, h.found_iff.mp hfound⟩, h.nonempty⟩
        · exact hsame rfl
      · have hstep : w.advance = { w with polls := rest } := by
          rw [Rx.advance, hpolls]
          exact congrArg (fun x => { w with polls := x }) (if_neg hfound)
        have hnone := Nat.le_of_not_lt (mt h.found_iff.mpr hfound)
        refine ⟨.test, gone, ?_, .inr ⟨rfl, rfl, rfl, hnone, ?_⟩, ?_, ?_, Nat.le_refl _⟩
        all_goals rw [hstep]
        · exact h
        · exact hsame rfl
  | length cur =>
      obtain ⟨rfl, hlt⟩ := h.knows
      have hfront : w.stored[gone]? = some (w.ring.frame (gone % numRxDesc)) := h.slots.front hlt
      have hpos := h.nonempty _ (List.mem_of_getElem? hfront)
      rw [RxRing.frame, length_slice] at hpos
      have hstep : w.advance = { w with
          polls := .hand (gone % numRxDesc) (w.ring.descs (gone % numRxDesc)).length :: rest
          handed := w.handed ++ [w.ring.frame (gone % numRxDesc)] } := by
        rw [Rx.advance, hpolls]
        exact if_pos hpos
      refine ⟨.hand (gone % numRxDesc) (w.ring.descs (gone % numRxDesc)).length, gone, ?_, .inl ⟨?_, rfl⟩, ?_, ?_,
        Nat.le_succ _⟩
      all_goals rw [hstep]
      · exact ⟨h.slots, h.rdh, h.rdt, h.rxCur, h.limit, ⟨rfl, hlt, rfl⟩, h.nonempty⟩
      · show w.handed ++ _ = w.handed ++ (w.stored.drop gone).take (gone + 1 - gone)
        rw [Nat.add_sub_cancel_left, List.take_one, List.head?_drop, hfront]
        rfl
  | hand cur len =>
      obtain ⟨hcur, hlt, -⟩ := h.knows
      have hstep : w.advance = { w with polls := .clear cur :: rest } := by rw [Rx.advance, hpolls]
      refine ⟨.clear cur, gone, ?_, .inl ⟨?_, rfl⟩, ?_, ?_, Nat.le_refl _⟩
      all_goals rw [hstep]
      · exact ⟨h.slots, h.rdh, h.rdt, h.rxCur, h.limit, ⟨hcur, hlt⟩, h.nonempty⟩
      · exact hsame rfl
  | clear cur =>
      obtain ⟨rfl, hlt⟩ := h.knows
      have hstep : w.advance = { w with
          ring.descs := Function.update w.ring.descs (gone % numRxDesc)
            { w.ring.descs (gone % numRxDesc) with status := 0 }
          polls := .next (gone % numRxDesc) :: rest } := by rw [Rx.advance, hpolls]
      refine ⟨.next (gone % numRxDesc), gone, ?_, .inl ⟨?_, rfl⟩, ?_, ?_, Nat.le_refl _⟩
      all_goals rw [hstep]
      · refine ⟨?_, h.rdh, h.rdt, h.rxCur, h.limit, ⟨rfl, hlt⟩, h.nonempty⟩
        show Slots numRxDesc (RxRing.frame { w.ring with descs := _ })
          (fun i => (Function.update w.ring.descs _ _ i).done) w.stored (gone + 1)
        rw [frame_clear, done_clear]
        exact h.slots.clear hlt
      · exact hsame rfl
  | next cur =>
      obtain ⟨rfl, hlt⟩ := h.knows
      have hstep : w.advance = { w with
          ring.rxCur := (gone % numRxDesc + 1) % numRxDesc
          polls := .giveBack (gone % numRxDesc) :: rest } := by rw [Rx.advance, hpolls]
      refine ⟨.giveBack (gone % numRxDesc), gone, ?_, .inl ⟨?_, rfl⟩, ?_, ?_, Nat.le_refl _⟩
      all_goals rw [hstep]
      · exact ⟨h.slots, h.rdh, h.rdt, Nat.mod_add_mod _ _ _, h.limit, ⟨rfl, hlt⟩, h.nonempty⟩
      · exact hsame rfl
  | giveBack cur =>
      obtain ⟨rfl, hlt⟩ := h.knows
      have hstep : w.advance = { w with ring.rdt := gone % numRxDesc, polls := .test :: rest } := by
        rw [Rx.advance, hpolls]
      have hround : gone % numRxDesc = (gone + 1 + 31) % numRxDesc := (Nat.add_mod_right gone 32).symm
      refine ⟨.test, gone + 1, ?_, .inl ⟨?_, rfl⟩, ?_, ?_, Nat.le_refl _⟩
      all_goals rw [hstep]
      · exact ⟨h.slots, h.rdh, hround, h.rxCur, Nat.le_trans h.limit (by omega), trivial, h.nonempty⟩
      · exact hsame rfl

/-- What has been handed over, further on. -/
theorem Advanced.take {p' : Poll} {gone' : Nat} (h : Advanced w p rest gone p' gone')
    (hhanded : w.handed = w.stored.take (gone + p.handed)) :
    w.advance.handed = w.stored.take (gone' + p'.handed) := by
  rw [h.handed, hhanded, ← List.take_add, Nat.add_sub_cancel' h.mono]

end Steps

/-! ## Runs -/

section Runs

variable {w w' : Rx} {e : RxEvent} {gone : Nat}

theorem current_idle (h : w.polls = []) : w.current = .test := by
  rw [Rx.current, h]
  rfl

theorem current_cons {p : Poll} {rest : List Poll} (h : w.polls = p :: rest) : w.current = p := by
  rw [Rx.current, h]
  rfl

theorem RxInv.of_boot (h : RxBoot w) : RxInv w := by
  refine ⟨by rw [h.polls]; exact Nat.zero_le 1, 0, ?_⟩
  rw [current_idle h.polls]
  refine ⟨⟨?_, ?_, h.rdt, h.rxCur, ?_, trivial, ?_⟩, ?_⟩
  · rw [h.stored]
    refine .empty (by decide) _ fun k hk => ?_
    rw [RxDesc.done, h.status k hk]
    decide
  · rw [h.rdh, h.stored]
    rfl
  · rw [h.stored]
    exact Nat.zero_le _
  · rw [h.stored]
    exact fun frame hf => absurd hf List.not_mem_nil
  · rw [h.handed, h.stored]
    rfl

theorem RxInv.advance (h : RxInv w) : RxInv w.advance := by
  obtain ⟨gone, hat, hhanded⟩ := h.at_
  cases hpolls : w.polls with
  | nil =>
      have hsame : w.advance = w := by rw [Rx.advance, hpolls]
      rw [hsame]
      exact h
  | cons p rest =>
      have hsingle := h.single
      rw [hpolls, List.length_cons] at hsingle
      obtain rfl : rest = [] := List.length_eq_zero_iff.mp (by omega)
      rw [current_cons hpolls] at hat hhanded
      obtain ⟨p', gone', hadv⟩ := hat.advance hpolls
      have hcurrent : w.advance.current = p' := by
        obtain ⟨hp, -⟩ | ⟨-, hp', -, -, hp⟩ := hadv.polls
        · exact current_cons hp
        · exact (current_idle hp).trans hp'.symm
      refine ⟨?_, gone', ?_⟩
      · obtain ⟨hp, -⟩ | ⟨-, -, -, -, hp⟩ := hadv.polls
        · rw [hp]
          exact Nat.le_refl 1
        · rw [hp]
          exact Nat.zero_le 1
      · rw [hcurrent, hadv.stored]
        exact ⟨hadv.ring, hadv.take hhanded⟩

theorem RxInv.next (h : RxInv w) (halone : Alone w e) (he : e.Possible w) : RxInv (w.next e) := by
  cases e with
  | store frame status =>
      obtain ⟨gone, hat, hhanded⟩ := h.at_
      refine ⟨h.single, gone, hat.store he, ?_⟩
      show w.handed = (w.stored ++ [frame]).take (gone + w.current.handed)
      rw [List.take_append_of_le_length hat.handed_le]
      exact hhanded
  | poll =>
      obtain ⟨gone, hat⟩ := h.at_
      have hpolls := halone rfl
      rw [current_idle hpolls] at hat
      refine ⟨?_, gone, hat⟩
      show (Poll.test :: w.polls).length ≤ 1
      rw [hpolls]
      exact Nat.le_refl 1
  | advance => exact h.advance

theorem rxInv_of_alone (h : rxSystem.ReachVia Alone w) : RxInv w := by
  refine h.invariant (fun w hw => .of_boot hw) ?_
  rintro w e _ hinv halone ⟨he, rfl⟩
  exact hinv.next halone he

/-- With nothing stored meanwhile, a poll goes on until everything is handed over. -/
theorem RingAt.drain {p : Poll} (h : RingAt w.ring w.stored p gone) (hpolls : w.polls = [p])
    (hhanded : w.handed = w.stored.take (gone + p.handed)) :
    ∃ n, (Rx.advance^[n] w).polls = [] ∧ (Rx.advance^[n] w).handed = w.stored := by
  -- by induction on the steps that are left
  generalize hk : 6 * w.stored.length - (6 * gone + p.rank) = k
  induction k generalizing w p gone with
  | zero =>
      obtain ⟨p', gone', hadv⟩ := h.advance hpolls
      obtain ⟨-, hrank⟩ | ⟨rfl, rfl, rfl, hall, hp⟩ := hadv.polls
      · have hle := hadv.ring.rank_le
        omega
      · refine ⟨1, hp, ?_⟩
        show w.advance.handed = w.stored
        rw [hadv.take hhanded]
        exact List.take_of_length_le hall
  | succ k ih =>
      obtain ⟨p', gone', hadv⟩ := h.advance hpolls
      obtain ⟨hp, hrank⟩ | ⟨rfl, rfl, rfl, hall, hp⟩ := hadv.polls
      · have hring := hadv.ring
        have hstored := hadv.stored
        rw [← hstored] at hring
        obtain ⟨n, hn⟩ := ih hring hp (by rw [hstored]; exact hadv.take hhanded) (by rw [hstored]; omega)
        rw [hstored] at hn
        exact ⟨n + 1, hn⟩
      · refine ⟨1, hp, ?_⟩
        show w.advance.handed = w.stored
        rw [hadv.take hhanded]
        exact List.take_of_length_le hall

theorem RxInv.isFifo (h : RxInv w) : IsFifo w := by
  obtain ⟨gone, hat, hhanded⟩ := h.at_
  have hlimit := hat.limit
  have hlength : w.handed.length = gone + w.current.handed := by
    rw [hhanded, List.length_take, Nat.min_eq_left hat.handed_le]
  have hidle (hpolls : w.polls = []) : RingAt w.ring w.stored .test gone ∧ w.handed.length = gone := by
    rw [current_idle hpolls] at hat hlength
    exact ⟨hat, hlength⟩
  refine ⟨?_, ?_, ?_, ?_, ?_, ?_⟩
  · rw [hlength]
    exact hhanded
  · rw [hlength]
    show w.stored.length ≤ gone + w.current.handed + 31
    omega
  · intro cur len rest hpolls
    rw [current_cons hpolls] at hat hhanded
    obtain ⟨rfl, hlt, rfl⟩ := hat.knows
    have hfront : w.stored[gone]? = some (w.ring.frame (gone % numRxDesc)) := hat.slots.front hlt
    have htake : w.handed = w.stored.take (gone + 1) := hhanded
    rw [htake, List.take_add_one, hfront]
    exact List.getLast?_concat
  · intro hpolls
    obtain ⟨hat, hlen⟩ := hidle hpolls
    rw [hlen]
    exact hat.found_iff
  · intro hpolls
    obtain ⟨hat, hlen⟩ := hidle hpolls
    have hnext : (w.next .poll).polls = [.test] := congrArg (Poll.test :: ·) hpolls
    rw [current_idle hpolls] at hhanded
    exact RingAt.drain (w := w.next .poll) hat hnext hhanded
  · intro hpolls
    obtain ⟨hat, hlen⟩ := hidle hpolls
    rw [hlen]
    exact hat.refuses_iff

/-- **The receive ring.**  In every run, whatever the card stores and whenever it
does so: as long as polls come one at a time, the ring is a queue of at most 31
frames. -/
theorem receive_ring_fifo (h : rxSystem.ReachVia Alone w) : IsFifo w := (rxInv_of_alone h).isFifo

end Runs

/-! ## A run -/

section Alone

variable {w : Rx}

theorem alone_store (h : rxSystem.ReachVia Alone w) {frame : List UInt8} {status : UInt8}
    (ha : w.ring.accepts frame status) : rxSystem.ReachVia Alone (w.next (.store frame status)) := by
  refine .step (e := .store frame status) h ?_ ⟨ha, rfl⟩
  intro he
  cases he

theorem alone_poll (h : rxSystem.ReachVia Alone w) (hidle : w.polls = []) : rxSystem.ReachVia Alone (w.next .poll) :=
  .step (e := .poll) h (fun _ => hidle) ⟨trivial, rfl⟩

theorem alone_advance (h : rxSystem.ReachVia Alone w) (n : Nat) : rxSystem.ReachVia Alone (Rx.advance^[n] w) := by
  induction n generalizing w with
  | zero => exact h
  | succ n ih =>
      refine ih (.step (e := .advance) h ?_ ⟨trivial, rfl⟩)
      intro he
      cases he

end Alone

/-- The card has been set up. -/
def bootRx : Rx where
  ring := ⟨fun _ => ⟨0, 0⟩, fun _ _ => 0, 0, 0, numRxDesc - 1⟩
  polls := []
  stored := []
  handed := []

theorem bootRx_boot : RxBoot bootRx := ⟨fun _ _ => rfl, rfl, rfl, rfl, rfl, rfl, rfl⟩

/-- A frame comes, and while it is handed over a second one. -/
def busyCard : Rx := (Rx.advance^[2] ((bootRx.next (.store [1, 2] 3)).next .poll)).next (.store [3] 3)

theorem busyCard_alone : rxSystem.ReachVia Alone busyCard := by
  have hfirst : rxSystem.ReachVia Alone (bootRx.next (.store [1, 2] 3)) := alone_store (.init bootRx_boot) (by decide)
  exact alone_store (alone_advance (alone_poll hfirst rfl) 2) (by decide)

/-- The poll takes both. -/
theorem two_frames_in_order : ∃ w, rxSystem.ReachVia Alone w ∧ w.polls = [] ∧ w.handed = [[1, 2], [3]] ∧
    IsFifo w := by
  have hrun := alone_advance busyCard_alone 11
  exact ⟨_, hrun, by decide, by decide, receive_ring_fifo hrun⟩

end LiteBSD.E1000
