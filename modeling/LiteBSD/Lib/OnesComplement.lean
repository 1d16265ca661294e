/-
# `LiteBSD.Lib.OnesComplement` — sums of 16-bit words with end-around carry

The one's-complement sum of a text takes its bytes in pairs, and adds the
carry out of the upper bit at the lower end again.  So it is the sum of the
words up to multiples of 65535, with 65535 in the place of 0 unless every word
is 0 (`onesSum_eq`).

Which byte of a pair is the upper one hardly matters: as 256 is its own
inverse modulo 65535, the two sums differ by a factor (`wordSum_swap`).  And
so a text that a little-endian machine has completed with the complement of
its sum adds up to 65535 for a reader who takes the bytes the other way round
(`onesSum_completed`).
-/
import Mathlib.Data.UInt
import Mathlib.Data.Nat.ModEq
import Mathlib.Tactic.Ring

namespace LiteBSD.Lib

/-- The bytes with weights in turn.  A last byte on its own gets the first
weight, as if a zero came behind it. -/
def wordSum (p q : Nat) : List UInt8 → Nat
  | [] => 0
  | [a] => p * a.toNat
  | a :: b :: rest => p * a.toNat + q * b.toNat + wordSum p q rest

/-- Addition of 16-bit words with end-around carry. -/
def onesAdd (a b : Nat) : Nat := if a + b < 65536 then a + b else a + b - 65535

/-- The sum of the big-endian words of a text, from `acc` on. -/
def onesSum (acc : Nat) : List UInt8 → Nat
  | [] => acc
  | [a] => onesAdd acc (256 * a.toNat)
  | a :: b :: rest => onesSum (onesAdd acc (256 * a.toNat + b.toNat)) rest

/-- What is left of a number when every carry has been added at the lower
end. -/
def endAround (s : Nat) : Nat := if s = 0 then 0 else (s - 1) % 65535 + 1

section Words

variable {p q : Nat}

theorem wordSum_append {xs : List UInt8} (ys : List UInt8) (h : xs.length % 2 = 0) :
    wordSum p q (xs ++ ys) = wordSum p q xs + wordSum p q ys := by
  induction xs using wordSum.induct with
  | case1 => simp [wordSum]
  | case2 a => simp at h
  | case3 a b rest ih =>
    have hrest : rest.length % 2 = 0 := by
      simp only [List.length_cons] at h
      omega
    simp only [List.cons_append, wordSum, ih hrest]
    omega

/-- Every pair of bytes adds a word at most. -/
theorem wordSum_le {k : Nat} (hp : p ≤ k) (hq : q ≤ k) (xs : List UInt8) :
    wordSum p q xs ≤ k * (255 * xs.length) := by
  have hbyte : ∀ {r : Nat} (a : UInt8), r ≤ k → r * a.toNat ≤ k * 255 := fun a hr =>
    Nat.mul_le_mul hr (Nat.le_of_lt_succ a.toNat_lt)
  induction xs using wordSum.induct with
  | case1 => exact Nat.zero_le _
  | case2 a => exact hbyte a hp
  | case3 a b rest ih =>
    have ha := hbyte a hp
    have hb := hbyte b hq
    calc wordSum p q (a :: b :: rest)
        ≤ k * 255 + k * 255 + k * (255 * rest.length) := by
          simp only [wordSum]
          omega
      _ = k * (255 * (a :: b :: rest).length) := by
          simp only [List.length_cons]
          ring

theorem wordSum_eq_zero (hp : 0 < p) (hq : 0 < q) {p' q' : Nat} {xs : List UInt8}
    (h : wordSum p q xs = 0) : wordSum p' q' xs = 0 := by
  induction xs using wordSum.induct with
  | case1 => rfl
  | case2 a =>
    have ha : a.toNat = 0 := (Nat.mul_eq_zero.mp h).resolve_left hp.ne'
    simp only [wordSum, ha, Nat.mul_zero]
  | case3 a b rest ih =>
    simp only [wordSum, Nat.add_eq_zero_iff, Nat.mul_eq_zero] at h
    obtain ⟨⟨ha, hb⟩, hrest⟩ := h
    simp only [wordSum, ha.resolve_left hp.ne', hb.resolve_left hq.ne', ih hrest, Nat.mul_zero,
      Nat.add_zero]

/-- The bytes the other way round: the same sum, up to a factor of 256. -/
theorem wordSum_swap (xs : List UInt8) : 256 * wordSum 1 256 xs ≡ wordSum 256 1 xs [MOD 65535] := by
  induction xs using wordSum.induct with
  | case1 => exact Nat.ModEq.refl _
  | case2 a => simp [wordSum, Nat.ModEq]
  | case3 a b rest ih =>
    have hround : 256 * (1 * a.toNat + 256 * b.toNat) ≡ 256 * a.toNat + 1 * b.toNat [MOD 65535] := by
      simp only [Nat.ModEq]
      omega
    simpa only [wordSum, Nat.mul_add] using (Nat.mul_add _ _ _ ▸ hround).add ih

end Words

/-! ## Carries -/

theorem endAround_le (s : Nat) : endAround s ≤ 65535 := by
  unfold endAround
  split <;> omega

theorem endAround_mod (s : Nat) : endAround s % 65535 = s % 65535 := by
  unfold endAround
  split <;> omega

theorem endAround_of_le {s : Nat} (h : s ≤ 65535) : endAround s = s := by
  unfold endAround
  split <;> omega

/-- One carry does not change what is left in the end. -/
theorem endAround_carry (s : Nat) : endAround (s % 65536 + s / 65536) = endAround s := by
  unfold endAround
  split <;> split <;> omega

theorem endAround_eq_top {s : Nat} (hpos : 0 < s) (h : s % 65535 = 0) : endAround s = 65535 := by
  rw [endAround, if_neg hpos.ne']
  omega

theorem endAround_onesAdd {a : Nat} (b c : Nat) (ha : a ≤ 65535) (hb : b ≤ 65535) :
    onesAdd a b ≤ 65535 ∧ endAround (onesAdd a b + c) = endAround (a + b + c) := by
  unfold onesAdd endAround
  split
  · exact ⟨by omega, rfl⟩
  · constructor
    · omega
    · split <;> split <;> omega

/-- Adding word by word, and all the carries at the end. -/
theorem onesSum_eq {acc : Nat} (h : acc ≤ 65535) (xs : List UInt8) :
    onesSum acc xs = endAround (acc + wordSum 256 1 xs) := by
  induction acc, xs using onesSum.induct with
  | case1 acc => exact (endAround_of_le h).symm
  | case2 acc a =>
    have hbyte := a.toNat_lt
    obtain ⟨hle, hsum⟩ := endAround_onesAdd (256 * a.toNat) 0 h (by omega)
    exact (endAround_of_le hle).symm.trans hsum
  | case3 acc a b rest ih =>
    have ha := a.toNat_lt
    have hb := b.toNat_lt
    obtain ⟨hle, hsum⟩ := endAround_onesAdd (256 * a.toNat + b.toNat) (wordSum 256 1 rest) h
      (by omega)
    calc onesSum acc (a :: b :: rest)
        = endAround (onesAdd acc (256 * a.toNat + b.toNat) + wordSum 256 1 rest) := ih hle
      _ = endAround (acc + (256 * a.toNat + b.toNat) + wordSum 256 1 rest) := hsum
      _ = endAround (acc + wordSum 256 1 (a :: b :: rest)) := by
        simp only [wordSum, Nat.one_mul, Nat.add_assoc]

/-- A sum and its complement add up to nothing but carries. -/
theorem onesSum_completed {xs : List UInt8} {s : Nat}
    (h : wordSum 1 256 xs = s + (65535 - endAround s)) : onesSum 0 xs = 65535 := by
  have hle := endAround_le s
  have hmod := endAround_mod s
  have hswap : 256 * wordSum 1 256 xs % 65535 = wordSum 256 1 xs % 65535 := wordSum_swap xs
  have hpos : 0 < wordSum 1 256 xs := by
    unfold endAround at h
    split at h <;> omega
  have hbig : 0 < wordSum 256 1 xs := by
    rw [Nat.pos_iff_ne_zero] at hpos ⊢
    exact fun hzero => hpos (wordSum_eq_zero (by decide) (by decide) hzero)
  rw [onesSum_eq (Nat.zero_le _), Nat.zero_add]
  exact endAround_eq_top hbig (by omega)

end LiteBSD.Lib
