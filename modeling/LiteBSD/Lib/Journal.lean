/-
# `LiteBSD.Lib.Journal` — a circular buffer without a count

A ring that knows no more than the index to write next and the index to read
next is empty when they are the same; so it is never filled, one place is left
free.  What went through it is told by a journal: everything that has been
written, in order, and how much of it is gone.  The indices are the two
numbers modulo the capacity, and between them the cells are what the journal
says (`Journal`).  Reader and writer each advance one number, and the other's
stays true (`Journal.push`, `Journal.drop`).
-/
import Mathlib.Data.List.Basic
import Mathlib.Data.Nat.ModEq
import Mathlib.Logic.Function.Basic

namespace LiteBSD.Lib

/-- `log` has been written, and the first `gone` elements are gone. -/
structure Journal {α : Type} (cap : Nat) (cells : Nat → α) (head tail : Nat) (log : List α) (gone : Nat) :
    Prop where
  writes : head = log.length % cap
  reads : tail = gone % cap
  gone_le : gone ≤ log.length
  room : log.length < gone + cap
  kept : ∀ i, gone ≤ i → i < log.length → log[i]? = some (cells (i % cap))

section Journals

variable {α : Type} {cap : Nat} {cells : Nat → α} {head tail gone : Nat} {log : List α}

/-- Numbers less than a turn apart are the same if they are the same modulo
the capacity. -/
theorem eq_of_mod_eq {m n : Nat} (hle : m ≤ n) (hlt : n < m + cap) (h : n % cap = m % cap) : n = m := by
  have hdvd : cap ∣ n - m := (Nat.modEq_iff_dvd' hle).mp h.symm
  have hzero : n - m = 0 := Nat.eq_zero_of_dvd_of_lt hdvd (by omega)
  omega

theorem Journal.empty (hcap : 0 < cap) (cells : Nat → α) : Journal cap cells 0 0 [] 0 where
  writes := (Nat.zero_mod cap).symm
  reads := (Nat.zero_mod cap).symm
  gone_le := Nat.le_refl 0
  room := by rw [List.length_nil]; omega
  kept := nofun

/-- One index behind the other: every place but one is taken. -/
theorem Journal.full_iff (h : Journal cap cells head tail log gone) :
    (head + 1) % cap = tail ↔ log.length + 1 = gone + cap := by
  have hroom := h.room
  rw [h.writes, h.reads, Nat.mod_add_mod]
  constructor
  · intro hmod
    by_contra hne
    have hsame := eq_of_mod_eq (Nat.le_succ_of_le h.gone_le) (by omega) hmod
    have hgone := h.gone_le
    omega
  · intro hfull
    rw [hfull, Nat.add_mod_right]

/-- The two indices are the same when there is nothing between them.  The
head may be an old one. -/
theorem Journal.eq_iff (h : Journal cap cells head tail log gone) {n : Nat} (hle : gone ≤ n)
    (hn : n ≤ log.length) : n % cap = tail ↔ n = gone := by
  have hroom := h.room
  rw [h.reads]
  constructor
  · exact eq_of_mod_eq hle (by omega)
  · rintro rfl
    rfl

/-- What is at the tail was written first of what is not gone. -/
theorem Journal.front (h : Journal cap cells head tail log gone) (hlt : gone < log.length) :
    log[gone]? = some (cells tail) := by
  rw [h.reads]
  exact h.kept gone (Nat.le_refl _) hlt

theorem Journal.push (h : Journal cap cells head tail log gone) (hroom : log.length + 1 < gone + cap)
    (x : α) : Journal cap (Function.update cells head x) ((head + 1) % cap) tail (log ++ [x]) gone where
  writes := by rw [List.length_append, h.writes, Nat.mod_add_mod, List.length_singleton]
  reads := h.reads
  gone_le := Nat.le_trans h.gone_le (by rw [List.length_append]; omega)
  room := by rwa [List.length_append, List.length_singleton]
  kept := by
    intro i hi hlt
    rw [List.length_append, List.length_singleton] at hlt
    rcases Nat.lt_or_ge i log.length with hold | hnew
    · have hne : i % cap ≠ head := by
        rw [h.writes]
        intro he
        have hsame := eq_of_mod_eq (Nat.le_of_lt hold) (by omega) he.symm
        omega
      rw [List.getElem?_append_left hold, Function.update_of_ne hne]
      exact h.kept i hi hold
    · have hlast : i = log.length := by omega
      rw [hlast, List.getElem?_concat_length, ← h.writes, Function.update_self]

/-- The place to be written next may hold anything. -/
theorem Journal.congr (h : Journal cap cells head tail log gone) {cells' : Nat → α}
    (hcells : ∀ k, k ≠ head → cells' k = cells k) : Journal cap cells' head tail log gone where
  writes := h.writes
  reads := h.reads
  gone_le := h.gone_le
  room := h.room
  kept := by
    intro i hi hlt
    have hroom := h.room
    have hne : i % cap ≠ head := by
      rw [h.writes]
      intro he
      have hsame := eq_of_mod_eq (Nat.le_of_lt hlt) (by omega) he.symm
      omega
    rw [hcells _ hne]
    exact h.kept i hi hlt

/-- A writer that does not look whether the last place is taken: everything that was
in the ring is gone, and so is what was written. -/
theorem Journal.overrun (h : Journal cap cells head tail log gone) (hfull : (head + 1) % cap = tail) (x : α) :
    Journal cap cells tail tail (log ++ [x]) (log.length + 1) where
  writes := by rw [← hfull, List.length_append, h.writes, Nat.mod_add_mod, List.length_singleton]
  reads := by rw [← hfull, h.writes, Nat.mod_add_mod]
  gone_le := by rw [List.length_append, List.length_singleton]
  room := by
    have hroom := h.room
    have hgone := h.gone_le
    rw [List.length_append, List.length_singleton]
    omega
  kept := by
    intro i hi hlt
    rw [List.length_append, List.length_singleton] at hlt
    omega

/-- The reader goes on, to `n`. -/
theorem Journal.drop (h : Journal cap cells head tail log gone) {n : Nat} (hle : gone ≤ n)
    (hn : n ≤ log.length) : Journal cap cells head (n % cap) log n where
  writes := h.writes
  reads := rfl
  gone_le := hn
  room := Nat.lt_of_lt_of_le h.room (Nat.add_le_add_right hle cap)
  kept i hi hlt := h.kept i (Nat.le_trans hle hi) hlt

end Journals

end LiteBSD.Lib
