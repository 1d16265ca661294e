/-
# `LiteBSD.Drivers.Transmit` — the transmit ring of the network card

The sending half of `src/drivers/e1000.c`: 16 descriptors, each with a buffer of
2048 bytes.  `e1000_send_packet` fills the descriptor at `s_tx_cur` and moves the
tail register behind it; the card takes what is between its head register and the
tail, in turn.

The driver waits for the descriptor it is going to fill, a hundred thousand rounds
at most.  It never asks how many descriptors the card still has to take.  With 15
of them the tail comes round to the head, which means to the card that there is
nothing to send.  All sixteen frames are lost, and none of the calls reports it.

So the card and the driver keep a queue which is emptied when a sixteenth frame is
put into it.  That is all that ever goes wrong (`transmit_ring`): whatever the card
does between any two stores of the driver, no frame is torn, sent twice or out of
order.

The calls are one at a time; the card takes the frame at its head in one go.
-/
import LiteBSD.Drivers.E1000

namespace LiteBSD.E1000

open Lib

def numTxDesc : Nat := 16

/-- `struct e1000_tx_desc`; `addr` is that of the buffer with the same number. -/
structure TxDesc where
  length : Nat
  cmd : UInt8
  status : UInt8
deriving DecidableEq, Repr

/-- The statics of the transmit side, and the head and tail registers. -/
structure TxRing where
  descs : Nat → TxDesc
  buffers : Nat → Nat → UInt8
  txCur : Nat
  tdh : Nat
  tdt : Nat

/-- How far a call of `e1000_send_packet` has come. -/
inductive Send where
  /-- in the loop, with the rounds that are left -/
  | wait (cur timeout : Nat) (frame : List UInt8)
  /-- about to copy the frame -/
  | copy (cur : Nat) (frame : List UInt8)
  | length (cur : Nat) (frame : List UInt8)
  | cmd (cur : Nat) (frame : List UInt8)
  | status (cur : Nat) (frame : List UInt8)
  | next (cur : Nat) (frame : List UInt8)
  /-- about to write the tail register -/
  | tail (frame : List UInt8)
deriving DecidableEq, Repr

/-- The ring, and the call under way.  For the record: the frames of the calls that
have returned 0, those that the card has sent, and how often the tail has come round
to the head. -/
structure Tx where
  ring : TxRing
  call : Option Send
  accepted : List (List UInt8)
  wire : List (List UInt8)
  overruns : Nat

/-- The frame in a buffer, by its descriptor. -/
def TxRing.frame (r : TxRing) (k : Nat) : List UInt8 := slice (r.buffers k) 0 (r.descs k).length

/-- The loop has to go on. -/
def TxDesc.busy (d : TxDesc) : Bool := d.status &&& 1 == 0 && d.cmd != 0

/-- `EOP | IFCS | RS` -/
def txCommand : UInt8 := 0x0B

/-- The next load or store of the call. -/
def Tx.advance (w : Tx) : Tx :=
  match w.call with
  | none => w
  | some (.wait cur timeout frame) =>
      { w with
        call := some (if (w.ring.descs cur).busy ∧ timeout ≠ 0 then .wait cur (timeout - 1) frame else .copy cur frame) }
  | some (.copy cur frame) =>
      { w with
        ring.buffers := Function.update w.ring.buffers cur (overwrite (w.ring.buffers cur) 0 frame)
        call := some (.length cur frame) }
  | some (.length cur frame) =>
      { w with
        ring.descs := Function.update w.ring.descs cur { w.ring.descs cur with length := frame.length }
        call := some (.cmd cur frame) }
  | some (.cmd cur frame) =>
      { w with
        ring.descs := Function.update w.ring.descs cur { w.ring.descs cur with cmd := txCommand }
        call := some (.status cur frame) }
  | some (.status cur frame) =>
      { w with
        ring.descs := Function.update w.ring.descs cur { w.ring.descs cur with status := 0 }
        call := some (.next cur frame) }
  | some (.next cur frame) => { w with ring.txCur := (cur + 1) % numTxDesc, call := some (.tail frame) }
  | some (.tail frame) =>
      { w with
        ring.tdt := w.ring.txCur
        call := none
        accepted := w.accepted ++ [frame]
        overruns := if w.ring.txCur = w.ring.tdh then w.overruns + 1 else w.overruns }

inductive TxEvent where
  /-- `e1000_send_packet` is called -/
  | send (frame : List UInt8)
  /-- the call goes on -/
  | advance
  /-- the card sends the frame at its head -/
  | transmit
deriving DecidableEq, Repr

def Tx.next (w : Tx) : TxEvent → Tx
  | .send frame =>
      if frame.length = 0 ∨ frame.length > rxBufferSize then w
      else { w with call := some (.wait w.ring.txCur 100000 frame) }
  | .advance => w.advance
  | .transmit =>
      { w with
        ring.descs := Function.update w.ring.descs w.ring.tdh
          { w.ring.descs w.ring.tdh with status := (w.ring.descs w.ring.tdh).status ||| 1 }
        ring.tdh := (w.ring.tdh + 1) % numTxDesc
        wire := w.wire ++ [w.ring.frame w.ring.tdh] }

/-- One call at a time, and the card goes as far as the tail. -/
def TxEvent.Possible (w : Tx) : TxEvent → Prop
  | .send _ => w.call = none
  | .advance => True
  | .transmit => w.ring.tdh ≠ w.ring.tdt

/-- `e1000_init` has run. -/
structure TxBoot (w : Tx) : Prop where
  txCur : w.ring.txCur = 0
  tdh : w.ring.tdh = 0
  tdt : w.ring.tdt = 0
  call : w.call = none
  accepted : w.accepted = []
  wire : w.wire = []
  overruns : w.overruns = 0

def txSystem : System Tx TxEvent where
  init := TxBoot
  step w e w' := e.Possible w ∧ w' = w.next e

/-- The frames that the card still has to send: from its head up to the tail. -/
def TxRing.queue (r : TxRing) : List (List UInt8) :=
  (List.range ((r.tdt + numTxDesc - r.tdh) % numTxDesc)).map fun i => r.frame ((r.tdh + i) % numTxDesc)

/-- What has become of the frames. -/
structure Delivered (w : Tx) : Prop where
  /-- nothing is torn, sent twice or out of order -/
  inOrder : (w.wire ++ w.ring.queue).Sublist w.accepted
  /-- the queue is short -/
  bound : w.ring.queue.length ≤ numTxDesc - 1
  /-- what is missing was lost, sixteen frames at a time -/
  lost : w.accepted.length = (w.wire ++ w.ring.queue).length + numTxDesc * w.overruns
  /-- and nothing is missing as long as the tail has not come round to the head -/
  complete : w.overruns = 0 → w.wire ++ w.ring.queue = w.accepted
  /-- a call returns, even if the card does nothing at all -/
  returns : ∃ n, (Tx.advance^[n] w).call = none

/-! ## What a call has stored -/

/-- What a call knows of the descriptor that it is to fill. -/
def Send.Knows (r : TxRing) : Send → Prop
  | wait cur _ _ => cur = r.tdt ∧ r.txCur = r.tdt
  | copy cur _ => cur = r.tdt ∧ r.txCur = r.tdt
  | length cur frame => cur = r.tdt ∧ r.txCur = r.tdt ∧ HoldsAt (r.buffers cur) 0 frame
  | cmd cur frame => cur = r.tdt ∧ r.txCur = r.tdt ∧ r.frame cur = frame
  | status cur frame => cur = r.tdt ∧ r.txCur = r.tdt ∧ r.frame cur = frame
  | next cur frame => cur = r.tdt ∧ r.txCur = r.tdt ∧ r.frame cur = frame
  | tail frame => r.txCur = (r.tdt + 1) % numTxDesc ∧ r.frame r.tdt = frame

/-- The steps that are left to a call, at most. -/
def Send.rank : Send → Nat
  | wait _ timeout _ => timeout + 7
  | copy .. => 6
  | length .. => 5
  | cmd .. => 4
  | status .. => 3
  | next .. => 2
  | tail _ => 1

/-- Between two calls the driver and the card agree on the next descriptor. -/
def TxRing.Expects (r : TxRing) : Option Send → Prop
  | none => r.txCur = r.tdt
  | some c => c.Knows r

/-- A state of a run; `gone` frames are sent or lost. -/
structure TxInv (w : Tx) : Prop where
  at_ : ∃ gone, Journal numTxDesc w.ring.frame w.ring.tdt w.ring.tdh w.accepted gone ∧
    w.wire.Sublist (w.accepted.take gone) ∧ gone = w.wire.length + numTxDesc * w.overruns
  call : w.ring.Expects w.call

section Steps

variable {w : Tx} {r : TxRing} {e : TxEvent}

/-- A step of the call that stores into the descriptor behind the queue, or nowhere. -/
theorem TxInv.stored (h : TxInv w) {ring : TxRing} {call : Send}
    (hframe : ∀ k, k ≠ w.ring.tdt → ring.frame k = w.ring.frame k)
    (htdh : ring.tdh = w.ring.tdh) (htdt : ring.tdt = w.ring.tdt) (hcall : call.Knows ring) :
    TxInv { w with ring := ring, call := some call } := by
  obtain ⟨gone, hj, hwire, hgone⟩ := h.at_
  refine ⟨⟨gone, ?_, hwire, hgone⟩, hcall⟩
  show Journal numTxDesc ring.frame ring.tdt ring.tdh w.accepted gone
  rw [htdh, htdt]
  exact hj.congr hframe

theorem frame_descs {k : Nat} {descs : Nat → TxDesc} (h : (descs k).length = (r.descs k).length) :
    ({ r with descs := descs } : TxRing).frame k = r.frame k := by
  unfold TxRing.frame
  rw [h]

/-- A store into a descriptor that is not its length. -/
theorem frame_update {cur : Nat} {d : TxDesc} (h : d.length = (r.descs cur).length) :
    ({ r with descs := Function.update r.descs cur d } : TxRing).frame = r.frame := by
  funext k
  refine frame_descs ?_
  by_cases hk : k = cur
  · subst hk
    rw [Function.update_self, h]
  · rw [Function.update_of_ne hk]

theorem TxRing.Expects.congr {r' : TxRing} {call : Option Send} (h : r.Expects call) (hframe : r'.frame = r.frame)
    (hbuffers : r'.buffers = r.buffers) (hcur : r'.txCur = r.txCur) (htdt : r'.tdt = r.tdt) : r'.Expects call := by
  cases call with
  | none => exact hcur.trans (Eq.trans h htdt.symm)
  | some c =>
      show c.Knows r'
      have hc : c.Knows r := h
      cases c with
      | wait cur timeout frame => rw [Send.Knows, hcur, htdt]; exact hc
      | copy cur frame => rw [Send.Knows, hcur, htdt]; exact hc
      | length cur frame => rw [Send.Knows, hcur, htdt, hbuffers]; exact hc
      | cmd cur frame => rw [Send.Knows, hcur, htdt, hframe]; exact hc
      | status cur frame => rw [Send.Knows, hcur, htdt, hframe]; exact hc
      | next cur frame => rw [Send.Knows, hcur, htdt, hframe]; exact hc
      | tail frame => rw [Send.Knows, hcur, htdt, hframe]; exact hc

theorem TxInv.advance (h : TxInv w) : TxInv w.advance := by
  have hcall := h.call
  unfold Tx.advance
  split
  · exact h
  · rename_i cur timeout frame hw
    rw [hw] at hcall
    refine h.stored (fun _ _ => rfl) rfl rfl ?_
    split
    · exact hcall
    · exact hcall
  · rename_i cur frame hw
    rw [hw] at hcall
    obtain ⟨rfl, hcur⟩ := hcall
    refine h.stored (fun k hk => ?_) rfl rfl ⟨rfl, hcur, ?_⟩
    · unfold TxRing.frame
      dsimp only
      rw [Function.update_of_ne hk]
    · dsimp only
      rw [Function.update_self]
      exact holdsAt_overwrite _ 0 frame
  · rename_i cur frame hw
    rw [hw] at hcall
    obtain ⟨rfl, hcur, hholds⟩ := hcall
    refine h.stored (fun k hk => ?_) rfl rfl ⟨rfl, hcur, ?_⟩
    · exact frame_descs (by rw [Function.update_of_ne hk])
    · unfold TxRing.frame
      dsimp only
      rw [Function.update_self]
      exact slice_of_holds hholds
  · rename_i cur frame hw
    rw [hw] at hcall
    obtain ⟨rfl, hcur, hframe⟩ := hcall
    have hsame : TxRing.frame { w.ring with
        descs := Function.update w.ring.descs w.ring.tdt { w.ring.descs w.ring.tdt with cmd := txCommand } } =
        w.ring.frame := frame_update rfl
    exact h.stored (fun k _ => congrFun hsame k) rfl rfl ⟨rfl, hcur, (congrFun hsame _).trans hframe⟩
  · rename_i cur frame hw
    rw [hw] at hcall
    obtain ⟨rfl, hcur, hframe⟩ := hcall
    have hsame : TxRing.frame { w.ring with
        descs := Function.update w.ring.descs w.ring.tdt { w.ring.descs w.ring.tdt with status := 0 } } = w.ring.frame :=
      frame_update rfl
    exact h.stored (fun k _ => congrFun hsame k) rfl rfl ⟨rfl, hcur, (congrFun hsame _).trans hframe⟩
  · rename_i cur frame hw
    rw [hw] at hcall
    obtain ⟨rfl, hcur, hframe⟩ := hcall
    exact h.stored (fun _ _ => rfl) rfl rfl ⟨rfl, hframe⟩
  · rename_i frame hw
    rw [hw] at hcall
    obtain ⟨hcur, hframe⟩ := hcall
    obtain ⟨gone, hj, hwire, hgone⟩ := h.at_
    refine ⟨?_, rfl⟩
    dsimp only
    rw [hcur]
    split
    · -- the tail comes round to the head
      rename_i hfull
      have hlen := hj.full_iff.mp hfull
      refine ⟨w.accepted.length + 1, ?_, ?_, ?_⟩
      · rw [hfull]
        exact hj.overrun hfull frame
      · rw [List.take_of_length_le (by rw [List.length_append, List.length_singleton])]
        exact (hwire.trans (List.take_sublist _ _)).trans (List.sublist_append_left _ _)
      · show w.accepted.length + 1 = w.wire.length + 16 * (w.overruns + 1)
        have hcap : w.accepted.length + 1 = gone + 16 := hlen
        have hsum : gone = w.wire.length + 16 * w.overruns := hgone
        omega
    · rename_i hroom
      have hspace : w.accepted.length + 1 < gone + numTxDesc := by
        have hne := mt hj.full_iff.mpr hroom
        have hlt := hj.room
        omega
      have hpush := hj.push hspace frame
      have hsame : Function.update w.ring.frame w.ring.tdt frame = w.ring.frame := by
        rw [← hframe]
        exact Function.update_eq_self _ _
      rw [hsame] at hpush
      refine ⟨gone, hpush, ?_, hgone⟩
      rw [List.take_append_of_le_length hj.gone_le]
      exact hwire

theorem TxInv.next (h : TxInv w) (he : e.Possible w) : TxInv (w.next e) := by
  cases e with
  | send frame =>
      show TxInv (if frame.length = 0 ∨ frame.length > rxBufferSize then w else _)
      split
      · exact h
      · have hcall := h.call
        have hidle : w.call = none := he
        rw [hidle] at hcall
        exact ⟨h.at_, hcall, hcall⟩
  | advance => exact h.advance
  | transmit =>
      obtain ⟨gone, hj, hwire, hgone⟩ := h.at_
      have hmore : gone < w.accepted.length := by
        refine Nat.lt_of_le_of_ne hj.gone_le fun hempty => he ?_
        rw [hj.writes, hj.reads, hempty]
      have hfront := hj.front hmore
      have hnext : (w.ring.tdh + 1) % numTxDesc = (gone + 1) % numTxDesc := by rw [hj.reads, Nat.mod_add_mod]
      have hsame : (w.next .transmit).ring.frame = w.ring.frame := frame_update (r := w.ring) rfl
      refine ⟨⟨gone + 1, ?_, ?_, ?_⟩, ?_⟩
      · show Journal numTxDesc (w.next .transmit).ring.frame w.ring.tdt ((w.ring.tdh + 1) % numTxDesc) w.accepted _
        rw [hsame, hnext]
        exact hj.drop (Nat.le_succ _) hmore
      · show (w.wire ++ [w.ring.frame w.ring.tdh]).Sublist (w.accepted.take (gone + 1))
        rw [List.take_add_one, hfront]
        exact hwire.append (List.Sublist.refl _)
      · show gone + 1 = (w.wire ++ [w.ring.frame w.ring.tdh]).length + numTxDesc * w.overruns
        rw [List.length_append, List.length_singleton, hgone]
        omega
      · exact h.call.congr hsame rfl rfl rfl

end Steps

/-! ## Runs -/

section Runs

variable {w : Tx}

theorem TxInv.of_boot (h : TxBoot w) : TxInv w := by
  refine ⟨⟨0, ?_, ?_, ?_⟩, ?_⟩
  · rw [h.tdt, h.tdh, h.accepted]
    exact .empty (by decide) _
  · rw [h.wire]
    exact List.nil_sublist _
  · rw [h.wire, h.overruns]
    rfl
  · rw [h.call]
    exact h.txCur.trans h.tdt.symm

theorem txInv_of_reach (h : txSystem.Reach w) : TxInv w := by
  refine h.invariant (fun w hw => .of_boot hw) ?_
  rintro w e _ hinv - ⟨he, rfl⟩
  exact hinv.next he

theorem rank_advance {c : Send} (hc : w.call = some c) :
    w.advance.call = none ∨ ∃ c', w.advance.call = some c' ∧ c'.rank < c.rank := by
  unfold Tx.advance
  rw [hc]
  cases c with
  | wait cur timeout frame =>
      refine .inr ⟨_, rfl, ?_⟩
      split
      · rename_i hbusy
        show timeout - 1 + 7 < timeout + 7
        have hmore := hbusy.2
        omega
      · show 6 < timeout + 7
        omega
  | copy cur frame => exact .inr ⟨_, rfl, Nat.lt_succ_self 5⟩
  | length cur frame => exact .inr ⟨_, rfl, Nat.lt_succ_self 4⟩
  | cmd cur frame => exact .inr ⟨_, rfl, Nat.lt_succ_self 3⟩
  | status cur frame => exact .inr ⟨_, rfl, Nat.lt_succ_self 2⟩
  | next cur frame => exact .inr ⟨_, rfl, Nat.lt_succ_self 1⟩
  | tail frame => exact .inl rfl

/-- The loop ends, and with it the call. -/
theorem call_returns (w : Tx) : ∃ n, (Tx.advance^[n] w).call = none := by
  cases hcall : w.call with
  | none => exact ⟨0, hcall⟩
  | some c =>
      generalize hk : c.rank = k
      induction k using Nat.strongRecOn generalizing w c with
      | ind k ih =>
          obtain hnone | ⟨c', hc', hlt⟩ := rank_advance hcall
          · exact ⟨1, hnone⟩
          · obtain ⟨n, hn⟩ := ih c'.rank (hk ▸ hlt) w.advance c' hc' rfl
            exact ⟨n + 1, hn⟩

/-- What is between the two registers is what is not gone. -/
theorem queue_eq {gone : Nat} (h : Journal numTxDesc w.ring.frame w.ring.tdt w.ring.tdh w.accepted gone) :
    w.ring.queue = w.accepted.drop gone := by
  have hgone := h.gone_le
  have hroom : w.accepted.length < gone + 16 := h.room
  have hcount : (w.ring.tdt + numTxDesc - w.ring.tdh) % numTxDesc = w.accepted.length - gone := by
    rw [h.writes, h.reads]
    show (w.accepted.length % 16 + 16 - gone % 16) % 16 = _
    omega
  rw [TxRing.queue, hcount]
  refine List.ext_getElem? fun i => ?_
  rcases Nat.lt_or_ge i (w.accepted.length - gone) with hi | hi
  · rw [List.getElem?_map, List.getElem?_range hi, List.getElem?_drop, h.kept _ (Nat.le_add_right _ _) (by omega), h.reads]
    exact congrArg (fun k => some (w.ring.frame k)) (Nat.mod_add_mod _ _ _)
  · rw [List.getElem?_eq_none (by rw [List.length_map, List.length_range]; exact hi),
      List.getElem?_eq_none (by rw [List.length_drop]; exact hi)]

/-- **The transmit ring.**  In every run, with the card at work between any two
stores of the driver: the frames that the card sends are those of the calls, whole
and in order, and what it never sends was lost sixteen frames at a time, when the
tail came round to the head. -/
theorem transmit_ring (h : txSystem.Reach w) : Delivered w := by
  obtain ⟨gone, hj, hwire, hgone⟩ := (txInv_of_reach h).at_
  have hle := hj.gone_le
  have hroom : w.accepted.length < gone + 16 := hj.room
  have hqueue := queue_eq hj
  refine ⟨?_, ?_, ?_, ?_, call_returns w⟩
  · rw [hqueue]
    have hsub := hwire.append (List.Sublist.refl (w.accepted.drop gone))
    rwa [List.take_append_drop] at hsub
  · rw [hqueue, List.length_drop]
    show w.accepted.length - gone ≤ 15
    omega
  · rw [hqueue, List.length_append, List.length_drop]
    omega
  · intro hnone
    rw [hnone, Nat.mul_zero, Nat.add_zero] at hgone
    have htake : w.wire = w.accepted.take gone := by
      refine hwire.eq_of_length ?_
      rw [List.length_take, Nat.min_eq_left hle, hgone]
    rw [hqueue, htake, List.take_append_drop]

end Runs

/-! ## Sixteen frames -/

/-- A call that is not disturbed. -/
def Tx.sendAll (w : Tx) (frame : List UInt8) : Tx := Tx.advance^[7] (w.next (.send frame))

theorem reach_advance {w : Tx} (h : txSystem.Reach w) (n : Nat) : txSystem.Reach (Tx.advance^[n] w) := by
  induction n generalizing w with
  | zero => exact h
  | succ n ih => exact ih (.step (e := .advance) h trivial ⟨trivial, rfl⟩)

theorem reach_sendAll {w : Tx} (h : txSystem.Reach w) (hidle : w.call = none) (frame : List UInt8) :
    txSystem.Reach (w.sendAll frame) := reach_advance (.step (e := .send frame) h trivial ⟨hidle, rfl⟩) 7

/-- The card has been set up. -/
def bootTx : Tx := ⟨⟨fun _ => ⟨0, 0, 1⟩, fun _ _ => 0, 0, 0, 0⟩, none, [], [], 0⟩

theorem bootTx_reach : txSystem.Reach bootTx := .init ⟨rfl, rfl, rfl, rfl, rfl, rfl, rfl⟩

/-- Sixteen calls before the card has sent anything: all return 0. -/
theorem sixteen_frames_lost : ∃ w, txSystem.Reach w ∧ w.accepted.length = 16 ∧ w.wire = [] ∧ w.ring.queue = [] ∧
    Delivered w := by
  have hrun : ∀ n ≤ 16, txSystem.Reach ((Tx.sendAll · [7])^[n] bootTx) := by
    intro n hn
    induction n with
    | zero => exact bootTx_reach
    | succ n ih =>
        have hidle : ∀ k < 16, ((Tx.sendAll · [7])^[k] bootTx).call = none := by decide +kernel
        rw [Function.iterate_succ_apply']
        exact reach_sendAll (ih (Nat.le_of_succ_le hn)) (hidle n hn) [7]
  exact ⟨_, hrun 16 (Nat.le_refl _), by decide +kernel, by decide +kernel, by decide +kernel,
    transmit_ring (hrun 16 (Nat.le_refl _))⟩

end LiteBSD.E1000
