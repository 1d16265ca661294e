/-
# `LiteBSD.Drivers.Interrupted` — a poll inside a poll

`e1000_poll_rx` clears the status of a descriptor, and moves on to the next one,
only when `netdev_rx_packet` is done with the frame.  A poll that begins before
that finds the same descriptor again.  The interrupt of the card calls
`e1000_poll_rx`, and in `sys_poll` interrupts are on from the second round on.

So the frame is handed over a second time.  What is worse, the outer poll goes on
with the number it has loaded: it sets `s_rx_cur` and the tail register back to
where IT is.  The descriptors that the inner poll has emptied behind that are not
the card's any more, and the driver waits for the first of them.  As soon as the
inner poll has taken two frames, nothing is received any more
(`interrupted_poll_wedges`).
-/
import LiteBSD.Drivers.E1000

namespace LiteBSD.E1000

open Lib

/-- The poll that was interrupted does not go on, and there is no third one. -/
def Within (w : Rx) (e : RxEvent) : Prop := e ≠ .poll ∧ (e = .advance → 2 ≤ w.polls.length)

/-- No poll begins. -/
def Undisturbed (_ : Rx) (e : RxEvent) : Prop := e ≠ .poll

/-- The driver waits for a descriptor that the card does not own: going on from its
head, the card comes to the tail first. -/
structure Wedged (w : Rx) : Prop where
  idle : ∀ p ∈ w.polls, p = .test
  empty : (w.ring.descs w.ring.rxCur).done = false
  rdh : w.ring.rdh < 32
  rdt : w.ring.rdt < 32
  rxCur : w.ring.rxCur < 32
  behind : (w.ring.rdt + 32 - w.ring.rdh) % 32 ≤ (w.ring.rxCur + 32 - w.ring.rdh) % 32

theorem advance_stored (w : Rx) : w.advance.stored = w.stored := by
  unfold Rx.advance
  split
  · rfl
  · rfl
  · dsimp only
    split
    · rfl
    · rfl
  · rfl
  · rfl
  · rfl
  · rfl

theorem stored_le (w : Rx) (e : RxEvent) : w.stored.length ≤ (w.next e).stored.length := by
  cases e with
  | store frame status =>
      show w.stored.length ≤ (w.stored ++ [frame]).length
      rw [List.length_append]
      exact Nat.le_add_right _ _
  | poll => exact Nat.le_refl _
  | advance => exact Nat.le_of_eq (congrArg List.length (advance_stored w).symm)

section Wedges

variable {w w' : Rx} {e : RxEvent}

/-- There is no way out, neither for the card nor for any number of polls. -/
theorem Wedged.next (h : Wedged w) (he : e.Possible w) : Wedged (w.next e) ∧ (w.next e).handed = w.handed := by
  cases e with
  | store frame status =>
      obtain ⟨hroom, -, -, -⟩ := he
      have hrdh := h.rdh
      have hrdt := h.rdt
      have hcur := h.rxCur
      have hbehind := h.behind
      have hother : w.ring.rxCur ≠ w.ring.rdh := by omega
      refine ⟨⟨h.idle, ?_, ?_, h.rdt, h.rxCur, ?_⟩, rfl⟩
      · show (Function.update w.ring.descs w.ring.rdh _ w.ring.rxCur).done = false
        rw [Function.update_of_ne hother]
        exact h.empty
      · exact Nat.mod_lt _ (by decide)
      · show (w.ring.rdt + 32 - (w.ring.rdh + 1) % 32) % 32 ≤ (w.ring.rxCur + 32 - (w.ring.rdh + 1) % 32) % 32
        omega
  | poll =>
      refine ⟨⟨fun p hp => ?_, h.empty, h.rdh, h.rdt, h.rxCur, h.behind⟩, rfl⟩
      rcases List.mem_cons.mp hp with rfl | hold
      · rfl
      · exact h.idle p hold
  | advance =>
      show Wedged w.advance ∧ w.advance.handed = w.handed
      cases hpolls : w.polls with
      | nil =>
          have hsame : w.advance = w := by rw [Rx.advance, hpolls]
          rw [hsame]
          exact ⟨h, rfl⟩
      | cons p rest =>
          obtain rfl : p = .test := h.idle p (by rw [hpolls]; exact List.mem_cons_self)
          have hstep : w.advance = { w with polls := rest } := by
            rw [Rx.advance, hpolls]
            exact congrArg (fun x => { w with polls := x }) (if_neg (Bool.eq_false_iff.mp h.empty))
          rw [hstep]
          refine ⟨⟨fun p hp => h.idle p ?_, h.empty, h.rdh, h.rdt, h.rxCur, h.behind⟩, rfl⟩
          rw [hpolls]
          exact List.mem_cons_of_mem _ hp

theorem Wedged.run (h : Wedged w) (hrun : (rxSystem.after w).Reach w') : Wedged w' ∧ w'.handed = w.handed := by
  refine hrun.invariant (I := fun w' => Wedged w' ∧ w'.handed = w.handed) ?_ ?_
  · rintro _ rfl
    exact ⟨h, rfl⟩
  · rintro w₁ e _ ⟨hw, hhanded⟩ - ⟨he, rfl⟩
    obtain ⟨hnext, hsame⟩ := hw.next he
    exact ⟨hnext, hsame.trans hhanded⟩

end Wedges

/-! ## While the inner poll runs -/

/-- The inner poll is at `p` and `gone`; the outer one stays where it is. -/
structure Inside (first : Nat) (frame : List UInt8) (before : List (List UInt8)) (outer : Poll) (w : Rx) : Prop where
  kept : w.stored[first]? = some frame
  at_ : ∃ p gone, first ≤ gone ∧ RingAt w.ring w.stored p gone ∧
    (w.polls = [p, outer] ∨ p = .test ∧ w.polls = [outer]) ∧
    w.handed = before ++ (w.stored.drop first).take (gone + p.handed - first)

section Inner

variable {w : Rx} {e : RxEvent} {first : Nat} {frame : List UInt8} {before : List (List UInt8)} {outer : Poll}

theorem Inside.next (h : Inside first frame before outer w) (hg : Within w e) (he : e.Possible w) :
    Inside first frame before outer (w.next e) := by
  obtain ⟨p, gone, hfirst, hat, hpolls, hhanded⟩ := h.at_
  have hle := hat.handed_le
  cases e with
  | store new status =>
      refine ⟨?_, p, gone, hfirst, hat.store he, hpolls, ?_⟩
      · obtain ⟨hlt, -⟩ := List.getElem?_eq_some_iff.mp h.kept
        exact (List.getElem?_append_left hlt).trans h.kept
      show w.handed = before ++ ((w.stored ++ [new]).drop first).take (gone + p.handed - first)
      rw [List.drop_append_of_le_length (by omega), List.take_append_of_le_length (by rw [List.length_drop]; omega)]
      exact hhanded
  | poll => exact absurd rfl hg.1
  | advance =>
      obtain hpolls | ⟨-, hpolls⟩ := hpolls
      · obtain ⟨p', gone', hadv⟩ := hat.advance hpolls
        have hmono := hadv.mono
        refine ⟨by rw [← h.kept]; exact congrArg (·[first]?) hadv.stored, p', gone', ?_, ?_, ?_, ?_⟩
        · obtain ⟨-, hrank⟩ | ⟨-, -, hsame, -, -⟩ := hadv.polls
          · cases p' <;> cases p <;> simp only [Poll.rank] at hrank <;> omega
          · omega
        · show RingAt w.advance.ring w.advance.stored p' gone'
          rw [hadv.stored]
          exact hadv.ring
        · obtain ⟨hp, -⟩ | ⟨-, hp', -, -, hp⟩ := hadv.polls
          · exact .inl hp
          · exact .inr ⟨hp', hp⟩
        · show w.advance.handed = before ++ (w.advance.stored.drop first).take (gone' + p'.handed - first)
          have hdrop : w.stored.drop (gone + p.handed) = (w.stored.drop first).drop (gone + p.handed - first) := by
            rw [List.drop_drop]
            congr 1
            omega
          have hsum : gone' + p'.handed - first =
              gone + p.handed - first + (gone' + p'.handed - (gone + p.handed)) := by omega
          rw [hadv.handed, hadv.stored, hhanded, hdrop, List.append_assoc, ← List.take_add, hsum]
      · have htwo := hg.2 rfl
        rw [hpolls] at htwo
        exact absurd htwo (Nat.not_succ_le_self 1)

end Inner

/-! ## When it has returned -/

/-- The outer poll goes on with its number, the `first`, where `gone` are behind the
inner one. -/
structure Behind (first gone cur len : Nat) (handed : List (List UInt8)) (w : Rx) : Prop where
  slots : Slots numRxDesc w.ring.frame (fun k => (w.ring.descs k).done) w.stored gone
  rdh : w.ring.rdh = w.stored.length % numRxDesc
  polls : ((w.polls = [.hand cur len] ∨ w.polls = [.clear cur] ∨ w.polls = [.next cur])) ∨
    w.polls = [.giveBack cur] ∧ w.ring.rxCur = (first + 1) % numRxDesc ∨
    (w.polls = [.test] ∨ w.polls = []) ∧ w.ring.rxCur = (first + 1) % numRxDesc ∧ w.ring.rdt = first % numRxDesc
  handed : w.handed = handed

section Outer

variable {w : Rx} {e : RxEvent} {first gone cur len : Nat} {handed : List (List UInt8)}

/-- The card has not come round to the descriptor of the outer poll, nor to the one behind. -/
theorem Behind.empty (h : Behind first gone cur len handed w) (htwo : first + 2 ≤ gone)
    (hturn : w.stored.length ≤ first + 32) {i : Nat} (hi : first ≤ i) (hi' : i ≤ first + 1) :
    (w.ring.descs (i % numRxDesc)).done = false := by
  rw [Bool.eq_false_iff, Ne, h.slots.flags _ (Nat.mod_lt _ h.slots.pos)]
  rintro ⟨k, hk, hlt, hmod⟩
  have hsame : k = i := eq_of_mod_eq (by omega) (by show k < i + 32; omega) hmod
  omega

theorem Behind.wedged (h : Behind first gone cur len handed w) (htwo : first + 2 ≤ gone)
    (hturn : w.stored.length ≤ first + 32) (hpolls : w.polls = [.test] ∨ w.polls = []) : Wedged w := by
  have hgone := h.slots.gone_le
  obtain hp | ⟨hp, -⟩ | ⟨-, hcur, hrdt⟩ := h.polls
  · rcases hpolls with he | he <;> rw [he] at hp <;> simp at hp
  · rcases hpolls with he | he <;> rw [he] at hp <;> simp at hp
  · have hrdh := h.rdh
    refine ⟨fun p hp => ?_, ?_, ?_, ?_, ?_, ?_⟩
    · rcases hpolls with he | he
      · rw [he] at hp
        exact List.mem_singleton.mp hp
      · rw [he] at hp
        exact absurd hp List.not_mem_nil
    · rw [hcur]
      exact h.empty htwo hturn (Nat.le_succ _) (Nat.le_refl _)
    · rw [hrdh]
      exact Nat.mod_lt _ (by decide)
    · rw [hrdt]
      exact Nat.mod_lt _ (by decide)
    · rw [hcur]
      exact Nat.mod_lt _ (by decide)
    · rw [hrdt, hcur, hrdh]
      show (first % 32 + 32 - w.stored.length % 32) % 32 ≤ ((first + 1) % 32 + 32 - w.stored.length % 32) % 32
      omega

theorem Behind.next (h : Behind first gone cur len handed w) (htwo : first + 2 ≤ gone) (hcur : cur = first % numRxDesc)
    (hg : Undisturbed w e) (he : e.Possible w) (hturn : (w.next e).stored.length ≤ first + 32) :
    Behind first gone cur len handed (w.next e) := by
  cases e with
  | store frame status =>
      obtain ⟨-, -, -, hstatus⟩ := he
      have hlen : w.stored.length + 1 ≤ first + 32 := by
        have hadd : (w.stored ++ [frame]).length ≤ first + 32 := hturn
        rwa [List.length_append, List.length_singleton] at hadd
      have hslots := h.slots.put (show w.stored.length < gone + 32 by omega) frame
      rw [← h.rdh] at hslots
      refine ⟨?_, ?_, h.polls, h.handed⟩
      · show Slots numRxDesc (w.ring.store frame status).frame (fun k => ((w.ring.store frame status).descs k).done) _ _
        rw [frame_store, done_store _ _ hstatus]
        exact hslots
      · show (w.ring.rdh + 1) % numRxDesc = (w.stored ++ [frame]).length % numRxDesc
        rw [List.length_append, h.rdh, Nat.mod_add_mod, List.length_singleton]
  | poll => exact absurd rfl hg
  | advance =>
      show Behind first gone cur len handed w.advance
      have hturn := Nat.le_trans (stored_le w .advance) hturn
      obtain (hp | hp | hp) | ⟨hp, hrx⟩ | ⟨hp | hp, hrx, hrdt⟩ := h.polls
      · have hstep : w.advance = { w with polls := [.clear cur] } := by rw [Rx.advance, hp]
        rw [hstep]
        exact ⟨h.slots, h.rdh, .inl (.inr (.inl rfl)), h.handed⟩
      · have hstep : w.advance = { w with
            ring.descs := Function.update w.ring.descs cur { w.ring.descs cur with status := 0 }
            polls := [.next cur] } := by rw [Rx.advance, hp]
        rw [hstep]
        refine ⟨?_, h.rdh, .inl (.inr (.inr rfl)), h.handed⟩
        show Slots numRxDesc (RxRing.frame { w.ring with descs := _ })
          (fun i => (Function.update w.ring.descs _ _ i).done) w.stored gone
        rw [frame_clear, done_clear]
        refine h.slots.congr (fun _ _ => rfl) fun k _ => ?_
        -- the flag is not set any more
        by_cases hk : k = cur
        · subst hk
          rw [Function.update_self, hcur]
          exact (h.empty htwo hturn (Nat.le_refl _) (Nat.le_succ _)).symm
        · rw [Function.update_of_ne hk]
      · have hstep : w.advance = { w with
            ring.rxCur := (cur + 1) % numRxDesc, polls := [.giveBack cur] } := by rw [Rx.advance, hp]
        rw [hstep]
        refine ⟨h.slots, h.rdh, .inr (.inl ⟨rfl, ?_⟩), h.handed⟩
        rw [hcur]
        exact Nat.mod_add_mod _ _ _
      · have hstep : w.advance = { w with ring.rdt := cur, polls := [.test] } := by rw [Rx.advance, hp]
        rw [hstep]
        exact ⟨h.slots, h.rdh, .inr (.inr ⟨.inl rfl, hrx, hcur⟩), h.handed⟩
      · have hnone : (w.ring.descs w.ring.rxCur).done ≠ true := by
          rw [hrx, h.empty htwo hturn (Nat.le_succ _) (Nat.le_refl _)]
          exact Bool.false_ne_true
        have hstep : w.advance = { w with polls := [] } := by
          rw [Rx.advance, hp]
          exact congrArg (fun x => { w with polls := x }) (if_neg hnone)
        rw [hstep]
        exact ⟨h.slots, h.rdh, .inr (.inr ⟨.inr rfl, hrx, hrdt⟩), h.handed⟩
      · have hsame : w.advance = w := by rw [Rx.advance, hp]
        rw [hsame]
        exact h

end Outer

/-! ## The interrupt -/

/-- **A poll in a poll.**  While a frame is handed over the interrupt comes, and its
poll takes at least two frames; meanwhile, and until the outer poll has returned, no
more than a turn of the ring comes in.  Then the frame has been handed over twice,
and nothing that the card stores is handed over ever again. -/
theorem interrupted_poll_wedges {w w₁ w₂ w₃ : Rx} {cur len : Nat} (h : rxSystem.ReachVia Alone w)
    (hpolls : w.polls = [.hand cur len]) (hinner : (rxSystem.after (w.next .poll)).ReachVia Within w₁)
    (hback : w₁.polls = [.hand cur len]) (htook : w.handed.length + 2 ≤ w₁.handed.length)
    (houter : (rxSystem.after w₁).ReachVia Undisturbed w₂) (hend : w₂.polls = [])
    (hturn : w₂.stored.length < w.handed.length + 32) (hafter : (rxSystem.after w₂).Reach w₃) :
    (∃ frame again, w.handed.getLast? = some frame ∧ w₁.handed = w.handed ++ frame :: again) ∧
      w₃.handed = w₁.handed := by
  obtain ⟨first, hat, hhanded⟩ := (rxInv_of_alone h).at_
  rw [current_cons hpolls] at hat hhanded
  obtain ⟨hcur, hlt, hlen⟩ := hat.knows
  have hfirst : w.stored[first]? = some (w.ring.frame (first % numRxDesc)) := hat.slots.front hlt
  have hlength : w.handed.length = first + 1 := by
    rw [hhanded, List.length_take]
    exact Nat.min_eq_left hlt
  -- the inner poll begins where the outer one is
  have hinside : Inside first (w.ring.frame (first % numRxDesc)) w.handed (.hand cur len) w₁ := by
    refine hinner.invariant (I := Inside first _ w.handed (.hand cur len)) ?_ ?_
    · rintro _ rfl
      refine ⟨hfirst, .test, first, Nat.le_refl _,
        ⟨hat.slots, hat.rdh, hat.rdt, hat.rxCur, hat.limit, trivial, hat.nonempty⟩,
        .inl ?_, ?_⟩
      · show Poll.test :: w.polls = _
        rw [hpolls]
      · show w.handed = w.handed ++ (w.stored.drop first).take (first + 0 - first)
        rw [Nat.add_zero, Nat.sub_self, List.take_zero, List.append_nil]
    · rintro v e _ hv hg ⟨he, rfl⟩
      exact hv.next hg he
  obtain ⟨p, gone, hle, hat₁, hp, hhanded₁⟩ := hinside.at_
  obtain hp | ⟨rfl, -⟩ := hp
  · rw [hback] at hp
    exact absurd (congrArg List.length hp) (show 1 ≠ 2 by decide)
  have hgone₁ : gone ≤ w₁.stored.length := hat₁.handed_le
  have hcount : (w₁.stored.drop first).length = w₁.stored.length - first := List.length_drop
  have hlen₁ : w₁.handed.length = first + 1 + (gone - first) := by
    rw [hhanded₁, List.length_append, List.length_take, hlength, hcount]
    show first + 1 + min (gone + 0 - first) _ = _
    omega
  have htwo : first + 2 ≤ gone := by omega
  refine ⟨⟨w.ring.frame (first % numRxDesc), ((w₁.stored.drop first).take (gone - first)).tail, ?_, ?_⟩, ?_⟩
  · rw [hhanded]
    show (w.stored.take (first + 1)).getLast? = _
    rw [List.take_add_one, hfirst]
    exact List.getLast?_concat
  · have hhead : ((w₁.stored.drop first).take (gone - first)).head? = some (w.ring.frame (first % numRxDesc)) := by
      rw [List.head?_take, if_neg (by omega), List.head?_drop]
      exact hinside.kept
    rw [hhanded₁]
    exact congrArg (w.handed ++ ·) (List.eq_cons_of_mem_head? hhead)
  · -- the outer poll goes on
    have hbehind : w₂.stored.length ≤ first + 32 → Behind first gone cur len w₁.handed w₂ := by
      refine houter.invariant
        (I := fun v => v.stored.length ≤ first + 32 → Behind first gone cur len w₁.handed v) ?_ ?_
      · rintro _ rfl -
        exact ⟨hat₁.slots, hat₁.rdh, .inl (.inl hback), rfl⟩
      · rintro v e _ hv hg ⟨he, rfl⟩ hlen
        exact (hv (Nat.le_trans (stored_le v e) hlen)).next htwo hcur hg he hlen
    have hturn₂ : w₂.stored.length ≤ first + 32 := by omega
    have hb := hbehind hturn₂
    have hwedged := hb.wedged htwo hturn₂ (.inr hend)
    rw [(hwedged.run hafter).2, hb.handed]

/-- The poll goes on and on. -/
theorem advances_from {w v : Rx} {G : Rx → RxEvent → Prop} (h : (rxSystem.after w).ReachVia G v) (n : Nat)
    (hg : ∀ k < n, G (Rx.advance^[k] v) .advance) : (rxSystem.after w).ReachVia G (Rx.advance^[n] v) := by
  induction n generalizing v with
  | zero => exact h
  | succ n ih =>
      refine ih (.step (e := .advance) h (hg 0 (Nat.succ_pos n)) ⟨trivial, rfl⟩) fun k hk => ?_
      exact hg (k + 1) (Nat.succ_lt_succ hk)

theorem advance_ne_poll : RxEvent.advance ≠ .poll := by
  intro he
  cases he

/-- Two frames are in the ring when the interrupt comes.  The third one is not received. -/
theorem third_frame_lost : ∃ w₁ w₂ w₃, (rxSystem.after busyCard).Reach w₁ ∧ (rxSystem.after w₁).Reach w₂ ∧
    (rxSystem.after w₂).Reach w₃ ∧ w₁.handed = [[1, 2], [1, 2], [3]] ∧ w₃.stored = [[1, 2], [3], [9]] ∧
    w₃.polls = [] ∧ w₃.handed = w₁.handed := by
  have hinner : (rxSystem.after (busyCard.next .poll)).ReachVia Within (Rx.advance^[13] (busyCard.next .poll)) := by
    have hdeep : ∀ k < 13, 2 ≤ (Rx.advance^[k] (busyCard.next .poll)).polls.length := by decide
    exact advances_from (.init rfl) 13 fun k hk => ⟨advance_ne_poll, fun _ => hdeep k hk⟩
  obtain ⟨w₁, hw₁⟩ : ∃ w₁, w₁ = Rx.advance^[13] (busyCard.next .poll) := ⟨_, rfl⟩
  have houter : (rxSystem.after w₁).ReachVia Undisturbed (Rx.advance^[5] w₁) :=
    advances_from (.init rfl) 5 fun _ _ => advance_ne_poll
  obtain ⟨w₂, hw₂⟩ : ∃ w₂, w₂ = Rx.advance^[5] w₁ := ⟨_, rfl⟩
  have hstore : (rxSystem.after w₂).Reach ((w₂.next (.store [9] 3)).next .poll) := by
    have hfits : w₂.ring.accepts [9] 3 := by
      rw [hw₂, hw₁]
      decide
    exact .step (e := .poll) (.step (e := .store [9] 3) (.init rfl) trivial ⟨hfits, rfl⟩) trivial ⟨trivial, rfl⟩
  have hafter := advances_from hstore 1 fun _ _ => trivial
  have hlost := interrupted_poll_wedges busyCard_alone rfl (hw₁ ▸ hinner) (by rw [hw₁]; decide) (by rw [hw₁]; decide)
    (hw₂ ▸ houter) (by rw [hw₂, hw₁]; decide) (by rw [hw₂, hw₁]; decide) hafter
  refine ⟨w₁, w₂, _, ?_, ?_, hafter, by rw [hw₁]; decide, by rw [hw₂, hw₁]; decide, by rw [hw₂, hw₁]; decide,
    hlost.2⟩
  · rw [hw₁]
    exact advances_from (.step (e := .poll) (.init rfl) trivial ⟨trivial, rfl⟩) 13 fun _ _ => trivial
  · rw [hw₂]
    exact houter.mono fun _ _ _ => trivial

end LiteBSD.E1000
