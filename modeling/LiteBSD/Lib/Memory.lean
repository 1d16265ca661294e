/-
# `LiteBSD.Lib.Memory` — lists of cells in a memory

A memory maps addresses to cells.  `HoldsAt mem a xs` says that the cells
`xs` are there from `a` on, and the lemmas say what stores do to that.

A sequence of blocks, one behind the other, is described by the regions they
take up (`regionsFrom`); a region that comes before another has no cell in
common with it.
-/
import Mathlib.Data.List.Basic
import Mathlib.Algebra.GroupWithZero.Nat

namespace LiteBSD.Lib

section Cells

variable {β : Type} {mem : Nat → β} {a b : Nat} {xs ys : List β}

/-- The memory with `xs` stored from `a` on. -/
def overwrite (mem : Nat → β) (a : Nat) (xs : List β) : Nat → β :=
  fun i => if a ≤ i then (xs[i - a]?).getD (mem i) else mem i

def HoldsAt (mem : Nat → β) (a : Nat) (xs : List β) : Prop :=
  ∀ i < xs.length, xs[i]? = some (mem (a + i))

theorem holdsAt_append :
    HoldsAt mem a (xs ++ ys) ↔ HoldsAt mem a xs ∧ HoldsAt mem (a + xs.length) ys := by
  constructor
  · intro h
    refine ⟨fun i hi => ?_, fun i hi => ?_⟩
    · have := h i (by rw [List.length_append]; omega)
      rwa [List.getElem?_append_left hi] at this
    · have := h (xs.length + i) (by rw [List.length_append]; omega)
      rwa [List.getElem?_append_right (Nat.le_add_right _ _), Nat.add_sub_cancel_left,
        ← Nat.add_assoc] at this
  · rintro ⟨hx, hy⟩ i hi
    rw [List.length_append] at hi
    rcases Nat.lt_or_ge i xs.length with hlt | hge
    · rw [List.getElem?_append_left hlt]
      exact hx i hlt
    · have := hy (i - xs.length) (by omega)
      rw [List.getElem?_append_right hge, this]
      congr 2
      omega

theorem holdsAt_cons {x : β} : HoldsAt mem a (x :: xs) ↔ mem a = x ∧ HoldsAt mem (a + 1) xs := by
  rw [← List.singleton_append, holdsAt_append]
  refine and_congr ⟨fun h => ?_, ?_⟩ Iff.rfl
  · exact (Option.some.inj (h 0 (Nat.succ_pos _))).symm
  · rintro rfl i hi
    obtain rfl : i = 0 := Nat.lt_one_iff.mp hi
    rfl

/-- A store changes the cells it is about. -/
theorem overwrite_inside {i : Nat} {x : β} (hi : a ≤ i) (hx : xs[i - a]? = some x) :
    overwrite mem a xs i = x := by
  rw [overwrite, if_pos hi, hx]
  rfl

theorem holdsAt_overwrite (mem : Nat → β) (a : Nat) (xs : List β) : HoldsAt (overwrite mem a xs) a xs := by
  intro i hi
  rw [overwrite_inside (Nat.le_add_right _ _), List.getElem?_eq_getElem hi]
  rw [Nat.add_sub_cancel_left, List.getElem?_eq_getElem hi]

theorem overwrite_nil (mem : Nat → β) (a : Nat) : overwrite mem a [] = mem := by
  funext i
  unfold overwrite
  split <;> rfl

/-- A store leaves the cells outside of it. -/
theorem overwrite_apart {i : Nat} (h : i < a ∨ a + xs.length ≤ i) : overwrite mem a xs i = mem i := by
  unfold overwrite
  split
  · rw [List.getElem?_eq_none (by omega)]
    rfl
  · rfl

theorem HoldsAt.overwrite_apart (h : HoldsAt mem a xs) (hab : a + xs.length ≤ b ∨ b + ys.length ≤ a) :
    HoldsAt (overwrite mem b ys) a xs := by
  intro i hi
  rw [h i hi, Lib.overwrite_apart]
  omega

/-- Two stores side by side are one. -/
theorem overwrite_append (mem : Nat → β) (a : Nat) (xs ys : List β) :
    overwrite (overwrite mem (a + xs.length) ys) a xs = overwrite mem a (xs ++ ys) := by
  funext i
  rcases Nat.lt_or_ge i a with hlt | hge
  · rw [Lib.overwrite_apart (.inl hlt), Lib.overwrite_apart (.inl hlt), Lib.overwrite_apart (.inl (by omega))]
  rcases Nat.lt_or_ge (i - a) xs.length with hx | hx
  · have hleft := List.getElem?_eq_getElem hx
    rw [overwrite_inside hge hleft, overwrite_inside hge ((List.getElem?_append_left hx).trans hleft)]
  · have hidx : i - (a + xs.length) = i - a - xs.length := by omega
    rw [Lib.overwrite_apart (.inr (by omega)), overwrite, if_pos (by omega), overwrite, if_pos hge,
      List.getElem?_append_right hx, hidx]

theorem overwrite_congr {mem' : Nat → β} {i : Nat} (h : mem i = mem' i) :
    overwrite mem a xs i = overwrite mem' a xs i := by
  unfold overwrite
  rw [h]

/-- And in the other order. -/
theorem overwrite_concat (mem : Nat → β) (a : Nat) (xs ys : List β) :
    overwrite (overwrite mem a xs) (a + xs.length) ys = overwrite mem a (xs ++ ys) := by
  rw [← overwrite_append]
  funext i
  rcases Nat.lt_or_ge i (a + xs.length) with hlt | hge
  · exact (Lib.overwrite_apart (.inl hlt)).trans (overwrite_congr (Lib.overwrite_apart (.inl hlt)).symm)
  · exact (overwrite_congr (Lib.overwrite_apart (.inr hge))).trans (Lib.overwrite_apart (.inr hge)).symm

end Cells

/-! ## Blocks one behind the other -/

/-- The cells from `start` on. -/
structure Region where
  start : Nat
  len : Nat
deriving DecidableEq, Repr

def Region.stop (r : Region) : Nat := r.start + r.len

/-- No cell of `r` comes as late as the first of `q`. -/
def Region.Before (r q : Region) : Prop := r.stop ≤ q.start

/-- Where blocks of these lengths are, the first of them at `a`. -/
def regionsFrom (a : Nat) : List Nat → List Region
  | [] => []
  | n :: lens => ⟨a, n⟩ :: regionsFrom (a + n) lens

section Blocks

variable {β : Type} {mem : Nat → β} {a : Nat} {lens : List Nat} {r : Region}

theorem regionsFrom_bounds (h : r ∈ regionsFrom a lens) : a ≤ r.start ∧ r.stop ≤ a + lens.sum := by
  induction lens generalizing a with
  | nil => cases h
  | cons n lens ih =>
      rw [List.sum_cons]
      rcases List.mem_cons.mp h with rfl | h
      · exact ⟨Nat.le_refl _, by unfold Region.stop; dsimp only; omega⟩
      · obtain ⟨hstart, hstop⟩ := ih h
        omega

theorem regionsFrom_pairwise (a : Nat) (lens : List Nat) : (regionsFrom a lens).Pairwise Region.Before := by
  induction lens generalizing a with
  | nil => exact .nil
  | cons n lens ih =>
      refine .cons (fun r hr => ?_) (ih (a + n))
      exact (regionsFrom_bounds hr).1

theorem regionsFrom_append (a : Nat) (lens lens' : List Nat) :
    regionsFrom a (lens ++ lens') = regionsFrom a lens ++ regionsFrom (a + lens.sum) lens' := by
  induction lens generalizing a with
  | nil => rfl
  | cons n lens ih =>
      rw [List.cons_append, regionsFrom, ih, regionsFrom, List.sum_cons, List.cons_append, Nat.add_assoc]

theorem length_regionsFrom (a : Nat) (lens : List Nat) : (regionsFrom a lens).length = lens.length := by
  induction lens generalizing a with
  | nil => rfl
  | cons n lens ih => rw [regionsFrom, List.length_cons, ih, List.length_cons]

end Blocks

end LiteBSD.Lib
