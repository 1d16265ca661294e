/-
# `LiteBSD.Lib.Numeral` — a block of digits as one number

A block of memory is a number, its lowest digit first.  When some digits in a
row are replaced, the number moves by what these digits move by, times a power
of the base (`numeral_change`).  As it is bounded by the length of the block,
no loop can push it in one direction for ever, whichever digits it replaces
and however they overlap.
-/
import Mathlib.Data.Nat.Digits.Lemmas

namespace LiteBSD.Lib

/-- The number with the digits `f 0` to `f (n - 1)`. -/
def numeral (b : Nat) (f : Nat → Nat) (n : Nat) : Nat := Nat.ofDigits b ((List.range n).map f)

section Numeral

variable {b k m n : Nat} {f g : Nat → Nat}

theorem numeral_lt (hb : 1 < b) (hf : ∀ i < n, f i < b) : numeral b f n < b ^ n := by
  have hlt := Nat.ofDigits_lt_base_pow_length hb (l := (List.range n).map f) fun d hd => by
    obtain ⟨i, hi, rfl⟩ := List.mem_map.mp hd
    exact hf i (List.mem_range.mp hi)
  rwa [List.length_map, List.length_range] at hlt

theorem numeral_congr (h : ∀ i < n, g i = f i) : numeral b g n = numeral b f n :=
  congrArg (Nat.ofDigits b) (List.map_congr_left fun i hi => h i (List.mem_range.mp hi))

/-- The first `k` digits, and those behind them. -/
theorem numeral_add (b : Nat) (f : Nat → Nat) (k n : Nat) :
    numeral b f (k + n) = numeral b f k + b ^ k * numeral b (fun i => f (k + i)) n := by
  unfold numeral
  rw [List.range_add, List.map_append, Nat.ofDigits_append, List.length_map, List.length_range, List.map_map]
  rfl

/-- The digits from `k` up to `k + m` are replaced. -/
theorem numeral_change (hsame : ∀ i < n, i < k ∨ k + m ≤ i → g i = f i) (hk : k + m ≤ n) :
    numeral b g n + b ^ k * numeral b (fun i => f (k + i)) m =
      numeral b f n + b ^ k * numeral b (fun i => g (k + i)) m := by
  obtain ⟨r, rfl⟩ := Nat.exists_eq_add_of_le hk
  have hlow : numeral b g k = numeral b f k := numeral_congr fun i hi => hsame i (by omega) (.inl hi)
  have hhigh : numeral b (fun i => g (k + m + i)) r = numeral b (fun i => f (k + m + i)) r :=
    numeral_congr fun i hi => hsame _ (by omega) (.inr (Nat.le_add_right _ _))
  rw [numeral_add b g, numeral_add b f, numeral_add b g, numeral_add b f, hlow, hhigh]
  ring

/-- What is put in place of digits decides which way the number moves. -/
theorem numeral_lt_of_change (hb : 0 < b) (hsame : ∀ i < n, i < k ∨ k + m ≤ i → g i = f i) (hk : k + m ≤ n)
    (hlt : numeral b (fun i => f (k + i)) m < numeral b (fun i => g (k + i)) m) : numeral b f n < numeral b g n := by
  have hchange := numeral_change (b := b) hsame hk
  have hpow := (Nat.mul_lt_mul_left (Nat.pow_pos (n := k) hb)).mpr hlt
  omega

end Numeral

end LiteBSD.Lib
