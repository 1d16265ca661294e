/-
# `LiteBSD.Lib.Slots` — a ring of slots that two parties hand to and fro

One party fills the slots in turn, the other empties them in turn, and a flag in
each slot says whose it is.  Neither knows how far the other has come but by the
flags.  The log is everything that was ever put in, and `gone` is how much of it
has been taken out: the flags that are set are those of the slots in between, and
these still hold what was put there (`Slots`).

    put      the next slot is filled and its flag set
    clear    the flag of the oldest is taken away

As many as there are slots may be in the ring; the flag of the oldest tells
whether there is one (`Slots.front_iff`).
-/
import LiteBSD.Lib.Journal

namespace LiteBSD.Lib

/-- `log` was put into the slots, and the flags of the first `gone` are cleared. -/
structure Slots {α : Type} (cap : Nat) (cells : Nat → α) (flag : Nat → Bool) (log : List α) (gone : Nat) : Prop where
  pos : 0 < cap
  gone_le : gone ≤ log.length
  room : log.length ≤ gone + cap
  kept : ∀ i, gone ≤ i → i < log.length → log[i]? = some (cells (i % cap))
  flags : ∀ k < cap, flag k = true ↔ ∃ i, gone ≤ i ∧ i < log.length ∧ i % cap = k

section Slots

variable {α : Type} {cap : Nat} {cells cells' : Nat → α} {flag flag' : Nat → Bool} {gone : Nat} {log : List α}

theorem Slots.empty (hcap : 0 < cap) (cells : Nat → α) (hflag : ∀ k < cap, flag k = false) :
    Slots cap cells flag [] 0 where
  pos := hcap
  gone_le := Nat.le_refl 0
  room := by rw [List.length_nil]; omega
  kept i _ hlt := absurd hlt (Nat.not_lt_zero i)
  flags := by
    intro k hk
    rw [hflag k hk]
    refine iff_of_false Bool.false_ne_true ?_
    rintro ⟨i, -, hlt, -⟩
    exact Nat.not_lt_zero i hlt

/-- Nobody looks at a slot whose number is too large. -/
theorem Slots.congr (h : Slots cap cells flag log gone) (hcells : ∀ k < cap, cells' k = cells k)
    (hflag : ∀ k < cap, flag' k = flag k) : Slots cap cells' flag' log gone where
  pos := h.pos
  gone_le := h.gone_le
  room := h.room
  kept i hi hlt := (h.kept i hi hlt).trans (congrArg some (hcells _ (Nat.mod_lt _ h.pos)).symm)
  flags k hk := by rw [hflag k hk, h.flags k hk]

/-- The flag of the oldest slot says whether there is anything in the ring. -/
theorem Slots.front_iff (h : Slots cap cells flag log gone) : flag (gone % cap) = true ↔ gone < log.length := by
  rw [h.flags _ (Nat.mod_lt _ h.pos)]
  constructor
  · rintro ⟨i, hi, hlt, -⟩
    exact Nat.lt_of_le_of_lt hi hlt
  · exact fun hlt => ⟨gone, Nat.le_refl _, hlt, rfl⟩

/-- And if there is, the slot holds what was put in first. -/
theorem Slots.front (h : Slots cap cells flag log gone) (hlt : gone < log.length) :
    log[gone]? = some (cells (gone % cap)) := h.kept gone (Nat.le_refl _) hlt

/-- The next slot is filled. -/
theorem Slots.put (h : Slots cap cells flag log gone) (hroom : log.length < gone + cap) (x : α) :
    Slots cap (Function.update cells (log.length % cap) x) (Function.update flag (log.length % cap) true)
      (log ++ [x]) gone where
  pos := h.pos
  gone_le := by
    rw [List.length_append]
    exact Nat.le_trans h.gone_le (Nat.le_add_right _ _)
  room := by
    rw [List.length_append, List.length_singleton]
    exact hroom
  kept := by
    intro i hi hlt
    rw [List.length_append, List.length_singleton] at hlt
    rcases Nat.lt_or_ge i log.length with hold | hnew
    · have hne : i % cap ≠ log.length % cap := by
        intro he
        have hsame := eq_of_mod_eq (Nat.le_of_lt hold) (by omega) he.symm
        omega
      rw [List.getElem?_append_left hold, Function.update_of_ne hne]
      exact h.kept i hi hold
    · obtain rfl : i = log.length := by omega
      rw [List.getElem?_concat_length, Function.update_self]
  flags := by
    intro k hk
    rw [List.length_append, List.length_singleton]
    by_cases hlast : k = log.length % cap
    · subst hlast
      rw [Function.update_self]
      exact iff_of_true rfl ⟨log.length, h.gone_le, Nat.lt_succ_self _, rfl⟩
    · rw [Function.update_of_ne hlast, h.flags k hk]
      constructor
      · rintro ⟨i, hi, hlt, hmod⟩
        exact ⟨i, hi, Nat.lt_succ_of_lt hlt, hmod⟩
      · rintro ⟨i, hi, hlt, hmod⟩
        refine ⟨i, hi, ?_, hmod⟩
        rcases Nat.lt_or_ge i log.length with hold | hnew
        · exact hold
        · obtain rfl : i = log.length := by omega
          exact absurd hmod.symm hlast

/-- The flag of the oldest is taken away. -/
theorem Slots.clear (h : Slots cap cells flag log gone) (hlt : gone < log.length) :
    Slots cap cells (Function.update flag (gone % cap) false) log (gone + 1) where
  pos := h.pos
  gone_le := hlt
  room := by
    have hroom := h.room
    omega
  kept i hi hi' := h.kept i (Nat.le_of_succ_le hi) hi'
  flags := by
    intro k hk
    have hroom := h.room
    by_cases hfirst : k = gone % cap
    · subst hfirst
      rw [Function.update_self]
      refine iff_of_false Bool.false_ne_true ?_
      rintro ⟨i, hi, hi', hmod⟩
      have hsame := eq_of_mod_eq (by omega) (by omega) hmod
      omega
    · rw [Function.update_of_ne hfirst, h.flags k hk]
      constructor
      · rintro ⟨i, hi, hi', hmod⟩
        refine ⟨i, Nat.lt_of_le_of_ne hi ?_, hi', hmod⟩
        rintro rfl
        exact hfirst hmod.symm
      · rintro ⟨i, hi, hi', hmod⟩
        exact ⟨i, Nat.le_of_succ_le hi, hi', hmod⟩

end Slots

end LiteBSD.Lib
