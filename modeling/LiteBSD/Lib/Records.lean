/-
# `LiteBSD.Lib.Records` — records in a buffer

Records are written one behind the other, each in a form that says where it
ends, and read back by going from one to the next.

  * `decodeAll_encodeAll`: when each record can be read off the front of
    whatever follows it, all of them are read back, with nothing left over.
  * `keepFitting`: of records that are to go into a buffer of so many bytes,
    each is written that still fits and the others are passed over.  What is
    written is a sublist and fits; it is everything if everything fits.

Numbers are written with their lowest byte first (`leBytes`).
-/
import Mathlib.Algebra.BigOperators.Group.List.Basic
import Mathlib.Algebra.GroupWithZero.Nat
import Mathlib.Data.List.Basic

namespace LiteBSD.Lib

/-! ## Numbers -/

/-- The `n` lowest bytes of `w`, the lowest first. -/
def leBytes : Nat → Nat → List UInt8
  | 0, _ => []
  | n + 1, w => UInt8.ofNat w :: leBytes n (w / 256)

def leValue : List UInt8 → Nat
  | [] => 0
  | b :: bytes => b.toNat + 256 * leValue bytes

theorem length_leBytes (n w : Nat) : (leBytes n w).length = n := by
  induction n generalizing w with
  | zero => rfl
  | succ n ih => rw [leBytes, List.length_cons, ih]

theorem leValue_leBytes (n w : Nat) : leValue (leBytes n w) = w % 256 ^ n := by
  induction n generalizing w with
  | zero => rw [Nat.pow_zero, Nat.mod_one, leBytes, leValue]
  | succ n ih =>
      have hlow : (UInt8.ofNat w).toNat = w % 256 := UInt8.toNat_ofNat'
      rw [leBytes, leValue, ih, hlow, Nat.pow_succ', Nat.mod_mul]

/-! ## One behind the other -/

/-- How a record is written, and how one is read off the front. -/
structure Codec (α β : Type) where
  encode : α → List β
  decode : List β → Option (α × List β)

namespace Codec

variable {α β : Type}

def encodeAll (c : Codec α β) (xs : List α) : List β := xs.flatMap c.encode

/-- Read records until nothing is left. -/
def decodeAll (c : Codec α β) : Nat → List β → Option (List α)
  | _, [] => some []
  | 0, _ :: _ => none
  | fuel + 1, b :: bytes =>
      match c.decode (b :: bytes) with
      | none => none
      | some (x, rest) => (c.decodeAll fuel rest).map (x :: ·)

/-- The record is not empty and is read back, whatever follows it. -/
def ReadsBack (c : Codec α β) (x : α) : Prop :=
  c.encode x ≠ [] ∧ ∀ rest, c.decode (c.encode x ++ rest) = some (x, rest)

variable {c : Codec α β} {xs : List α}

/-- One look for each byte is more than enough. -/
theorem decodeAll_encodeAll (h : ∀ x ∈ xs, c.ReadsBack x) {fuel : Nat} (hfuel : (c.encodeAll xs).length ≤ fuel) :
    c.decodeAll fuel (c.encodeAll xs) = some xs := by
  induction xs generalizing fuel with
  | nil =>
      cases fuel with
      | zero => rfl
      | succ fuel => rfl
  | cons x xs ih =>
      obtain ⟨hne, hback⟩ := h x List.mem_cons_self
      have hsplit : c.encodeAll (x :: xs) = c.encode x ++ c.encodeAll xs := List.flatMap_cons
      rw [hsplit] at hfuel ⊢
      obtain ⟨b, bytes, hcons⟩ := List.exists_cons_of_ne_nil hne
      have hlen : (c.encode x ++ c.encodeAll xs).length = bytes.length + (c.encodeAll xs).length + 1 := by
        rw [hcons, List.length_append, List.length_cons]
        omega
      cases fuel with
      | zero => omega
      | succ fuel =>
          have hfuel' : (c.encodeAll xs).length ≤ fuel := by omega
          have hrest := ih (fun y hy => h y (List.mem_cons_of_mem _ hy)) hfuel'
          have hread := hback (c.encodeAll xs)
          rw [hcons, List.cons_append] at hread ⊢
          rw [decodeAll, hread]
          dsimp only
          rw [hrest, Option.map_some]

end Codec

/-! ## As many as fit -/

/-- Those of the records that fit behind the `used` bytes of a buffer of `cap`
and behind each other. -/
def keepFitting {α : Type} (size : α → Nat) (cap : Nat) : Nat → List α → List α
  | _, [] => []
  | used, x :: xs =>
      if used + size x ≤ cap then x :: keepFitting size cap (used + size x) xs else keepFitting size cap used xs

section Fitting

variable {α : Type} {size : α → Nat} {cap used : Nat} {xs : List α}

theorem keepFitting_sublist : (keepFitting size cap used xs).Sublist xs := by
  induction xs generalizing used with
  | nil => exact .slnil
  | cons x xs ih =>
      rw [keepFitting]
      split
      · exact ih.cons_cons x
      · exact ih.cons x

theorem keepFitting_fits (h : used ≤ cap) : used + ((keepFitting size cap used xs).map size).sum ≤ cap := by
  induction xs generalizing used with
  | nil => exact h
  | cons x xs ih =>
      rw [keepFitting]
      split
      · rename_i hfits
        have hrest := ih hfits
        rw [List.map_cons, List.sum_cons]
        omega
      · exact ih h

theorem keepFitting_all (h : used + (xs.map size).sum ≤ cap) : keepFitting size cap used xs = xs := by
  induction xs generalizing used with
  | nil => rfl
  | cons x xs ih =>
      rw [List.map_cons, List.sum_cons] at h
      rw [keepFitting, if_pos (by omega), ih (by omega)]

end Fitting

end LiteBSD.Lib
