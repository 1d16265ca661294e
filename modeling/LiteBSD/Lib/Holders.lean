/-
# `LiteBSD.Lib.Holders` — exact reference counts

A table of slots, each empty or pointing at an object, and a counter for
each object that is allocated.  `Counted` says that the counters are EXACT:
an object is allocated exactly when some slot points at it, and then its
counter is the number of the slots that do.

The rules are the moves a reference-counted structure is built from.  A
free slot takes hold of an object (`Counted.retain`, which covers a new
object and its counter of 1), a slot lets go of one (`Counted.release`,
which frees it when the slot was the last), and slots that are empty come
and go (`Counted.of_empty_slot`, `Counted.erase`).

`Covered` is what is left when slots may go without letting go first: no
counter is too LOW, so that nothing is freed that a slot still points at.
-/
import Mathlib.Data.List.Nodup
import Mathlib.Logic.Function.Basic

namespace LiteBSD.Lib

variable {ι κ : Type} [DecidableEq κ]

/-- How many of the slots point at `o`. -/
def holders (slots : List ι) (ptr : ι → Option κ) (o : κ) : Nat :=
  slots.countP fun i => ptr i = some o

/-- One slot's share in the count of `o`. -/
def share (p : Option κ) (o : κ) : Nat := if p = some o then 1 else 0

@[simp] theorem share_none (o : κ) : share none o = 0 := rfl

@[simp] theorem share_self (o : κ) : share (some o) o = 1 := by simp [share]

theorem share_ne {o o' : κ} (h : o' ≠ o) : share (some o) o' = 0 := by
  simp [share, Ne.symm h]

theorem holders_cons (slots : List ι) (ptr : ι → Option κ) (i : ι) (o : κ) :
    holders (i :: slots) ptr o = holders slots ptr o + share (ptr i) o := by
  simp [holders, share, List.countP_cons]

theorem holders_congr {slots : List ι} {ptr ptr' : ι → Option κ}
    (h : ∀ i ∈ slots, ptr' i = ptr i) (o : κ) : holders slots ptr' o = holders slots ptr o :=
  List.countP_congr fun i hi => by rw [h i hi]

theorem holders_pos {slots : List ι} {ptr : ι → Option κ} {o : κ} :
    0 < holders slots ptr o ↔ ∃ i ∈ slots, ptr i = some o := by
  simp [holders]

/-- Taking a slot out takes its share out. -/
theorem holders_erase [DecidableEq ι] {slots : List ι} {i : ι} (hi : i ∈ slots) (ptr : ι → Option κ) (o : κ) :
    holders (slots.erase i) ptr o + share (ptr i) o = holders slots ptr o := by
  rw [← holders_cons]
  exact ((List.perm_cons_erase hi).countP_eq _).symm

/-- Storing into one slot exchanges its share. -/
theorem holders_update [DecidableEq ι] {slots : List ι} {i : ι} (hn : slots.Nodup) (hi : i ∈ slots)
    (ptr : ι → Option κ) (p : Option κ) (o : κ) :
    holders slots (Function.update ptr i p) o + share (ptr i) o =
      holders slots ptr o + share p o := by
  have hrest : holders (slots.erase i) (Function.update ptr i p) o =
      holders (slots.erase i) ptr o :=
    holders_congr (fun j hj => Function.update_of_ne (hn.mem_erase_iff.mp hj).1 _ _) o
  have hold := holders_erase hi ptr o
  have hnew := holders_erase hi (Function.update ptr i p) o
  rw [Function.update_self, hrest] at hnew
  omega

/-- Two slots that point at one object have it counted twice. -/
theorem two_le_holders [DecidableEq ι] {slots : List ι} {ptr : ι → Option κ} {o : κ} {i j : ι}
    (hi : i ∈ slots) (hj : j ∈ slots) (hij : i ≠ j) (hpi : ptr i = some o)
    (hpj : ptr j = some o) : 2 ≤ holders slots ptr o := by
  have hj' : j ∈ slots.erase i := (List.mem_erase_of_ne (Ne.symm hij)).mpr hj
  have hpos := holders_pos.mpr ⟨j, hj', hpj⟩
  have herase := holders_erase hi ptr o
  rw [hpi, share_self] at herase
  omega

/-- What two slots point at has a holder besides any given one. -/
theorem exists_other_holder [DecidableEq ι] {slots : List ι} (hn : slots.Nodup)
    (ptr : ι → Option κ) {o : κ} (h : 2 ≤ holders slots ptr o) {i : ι} (hi : i ∈ slots) :
    ∃ j ∈ slots, j ≠ i ∧ ptr j = some o := by
  have herase := holders_erase hi ptr o
  have hshare : share (ptr i) o ≤ 1 := by
    unfold share
    split <;> decide
  obtain ⟨j, hj, hp⟩ := holders_pos.mp (show 0 < holders (slots.erase i) ptr o by omega)
  obtain ⟨hji, hj⟩ := hn.mem_erase_iff.mp hj
  exact ⟨j, hj, hji, hp⟩

/-- The counter of an object with `n` holders; a block without holders is
not allocated. -/
def counter (n : Nat) : Option Int := if n = 0 then none else some n

@[simp] theorem counter_zero : counter 0 = none := rfl

theorem counter_pos {n : Nat} (h : 0 < n) : counter n = some (n : Int) := by
  simp [counter, Nat.pos_iff_ne_zero.mp h]

theorem counter_eq_some {n : Nat} {k : Int} (h : counter n = some k) : k = n ∧ 0 < n := by
  unfold counter at h
  split at h
  · exact absurd h (by simp)
  · rename_i hn
    simp only [Option.some.injEq] at h
    exact ⟨h.symm, Nat.pos_of_ne_zero hn⟩

theorem counter_eq_none {n : Nat} (h : counter n = none) : n = 0 := by
  unfold counter at h
  split at h
  · assumption
  · exact absurd h (by simp)

/-- The counters are exact. -/
def Counted (slots : List ι) (ptr : ι → Option κ) (count : κ → Option Int) : Prop :=
  ∀ o, count o = counter (holders slots ptr o)

namespace Counted

variable {slots slots' : List ι} {ptr ptr' : ι → Option κ} {count : κ → Option Int}

/-- What a slot points at is allocated, with a positive counter. -/
theorem of_held (h : Counted slots ptr count) {i : ι} {o : κ} (hi : i ∈ slots)
    (hp : ptr i = some o) :
    count o = some (holders slots ptr o : Int) ∧ 0 < holders slots ptr o := by
  have hpos : 0 < holders slots ptr o := holders_pos.mpr ⟨i, hi, hp⟩
  exact ⟨by rw [h o, counter_pos hpos], hpos⟩

/-- What is allocated is held. -/
theorem held (h : Counted slots ptr count) {o : κ} {k : Int} (hc : count o = some k) :
    ∃ i ∈ slots, ptr i = some o := by
  rw [h o] at hc
  exact holders_pos.mp (counter_eq_some hc).2

/-- What is not allocated is not held. -/
theorem not_held (h : Counted slots ptr count) {o : κ} (hc : count o = none) :
    holders slots ptr o = 0 := by
  rw [h o] at hc
  exact counter_eq_none hc

/-- Slots that have the same shares have the same counters. -/
theorem congr (h : Counted slots ptr count)
    (he : ∀ o, holders slots' ptr' o = holders slots ptr o) : Counted slots' ptr' count := by
  intro o
  rw [h o, he o]

/-- An empty slot takes hold of `o`, counted `k` so far, `0` for a new
object. -/
theorem retain [DecidableEq ι] (h : Counted slots ptr count) (hn : slots.Nodup) {i : ι} (hi : i ∈ slots)
    (hp : ptr i = none) {o : κ} {k : Int} (hk : k = holders slots ptr o) :
    Counted slots (Function.update ptr i (some o)) (Function.update count o (some (k + 1))) := by
  intro o'
  have hu := holders_update hn hi ptr (some o) o'
  rw [hp, share_none, Nat.add_zero] at hu
  by_cases ho : o' = o
  · subst ho
    rw [Function.update_self, hu, share_self, counter_pos (Nat.succ_pos _), hk]
    rfl
  · rw [Function.update_of_ne ho, hu, share_ne ho, Nat.add_zero]
    exact h o'

/-- A slot lets go of `o`, which is freed with its last holder. -/
theorem release [DecidableEq ι] (h : Counted slots ptr count) (hn : slots.Nodup) {i : ι} (hi : i ∈ slots)
    {o : κ} {k : Int} (hp : ptr i = some o) (hk : count o = some k) :
    Counted slots (Function.update ptr i none)
      (Function.update count o (if k - 1 ≤ 0 then none else some (k - 1))) := by
  intro o'
  have hu := holders_update hn hi ptr none o'
  rw [share_none, Nat.add_zero, hp] at hu
  by_cases ho : o' = o
  · subst ho
    rw [share_self] at hu
    have hkn : k = holders slots ptr o' := (counter_eq_some ((h o').symm.trans hk)).1
    rw [Function.update_self]
    split
    · rename_i hle
      have hz : holders slots (Function.update ptr i none) o' = 0 := by omega
      rw [hz, counter_zero]
    · rename_i hgt
      rw [counter_pos (by omega)]
      congr 1
      omega
  · rw [share_ne ho, Nat.add_zero] at hu
    rw [Function.update_of_ne ho, hu]
    exact h o'

/-- A new slot that points nowhere. -/
theorem of_empty_slot (h : Counted slots ptr count) {i : ι} (hp : ptr i = none) :
    Counted (i :: slots) ptr count :=
  h.congr fun o => by rw [holders_cons, hp, share_none, Nat.add_zero]

/-- A slot that points nowhere goes. -/
theorem erase [DecidableEq ι] (h : Counted slots ptr count) {i : ι} (hi : i ∈ slots) (hp : ptr i = none) :
    Counted (slots.erase i) ptr count :=
  h.congr fun o => by rw [← holders_erase hi ptr o, hp, share_none, Nat.add_zero]

end Counted

/-- What a slot points at is allocated, and its counter is not below the
number of the slots that do. -/
def Covered (slots : List ι) (ptr : ι → Option κ) (count : κ → Option Int) : Prop :=
  ∀ o, 0 < holders slots ptr o → ∃ k, count o = some k ∧ (holders slots ptr o : Int) ≤ k

namespace Covered

variable {slots slots' : List ι} {ptr ptr' : ι → Option κ} {count : κ → Option Int}

/-- Fewer holders are covered, too. -/
theorem mono (h : Covered slots ptr count)
    (hle : ∀ o, holders slots' ptr' o ≤ holders slots ptr o) : Covered slots' ptr' count := by
  intro o ho
  have ho' := hle o
  obtain ⟨k, hk, hcover⟩ := h o (Nat.lt_of_lt_of_le ho ho')
  exact ⟨k, hk, Int.le_trans (Int.ofNat_le.mpr ho') hcover⟩

/-- What is not allocated is not held. -/
theorem not_held (h : Covered slots ptr count) {o : κ} (hc : count o = none) :
    holders slots ptr o = 0 := by
  by_contra hne
  obtain ⟨k, hk, _⟩ := h o (Nat.pos_of_ne_zero hne)
  rw [hc] at hk
  cases hk

/-- An empty slot takes hold of `o`, counted `k` so far, `0` for a new
object. -/
theorem retain [DecidableEq ι] (h : Covered slots ptr count) (hn : slots.Nodup) {i : ι}
    (hi : i ∈ slots) (hp : ptr i = none) {o : κ} {k : Int} (hk : (holders slots ptr o : Int) ≤ k) :
    Covered slots (Function.update ptr i (some o)) (Function.update count o (some (k + 1))) := by
  intro o' ho'
  have hu := holders_update hn hi ptr (some o) o'
  rw [hp, share_none, Nat.add_zero] at hu
  by_cases ho : o' = o
  · subst ho
    rw [share_self] at hu
    refine ⟨k + 1, Function.update_self _ _ _, ?_⟩
    omega
  · rw [share_ne ho, Nat.add_zero] at hu
    rw [Function.update_of_ne ho, hu]
    exact h o' (hu ▸ ho')

/-- A slot lets go of `o`, which is freed when its counter comes to 0. -/
theorem release [DecidableEq ι] (h : Covered slots ptr count) (hn : slots.Nodup) {i : ι}
    (hi : i ∈ slots) {o : κ} {k : Int} (hp : ptr i = some o) (hk : count o = some k) :
    Covered slots (Function.update ptr i none)
      (Function.update count o (if k - 1 ≤ 0 then none else some (k - 1))) := by
  intro o' ho'
  have hu := holders_update hn hi ptr none o'
  rw [share_none, Nat.add_zero, hp] at hu
  by_cases ho : o' = o
  · subst ho
    rw [share_self] at hu
    obtain ⟨k', hk', hcover⟩ := h o' (by omega)
    rw [hk, Option.some.injEq] at hk'
    subst hk'
    have hmore : ¬k - 1 ≤ 0 := by omega
    rw [Function.update_self, if_neg hmore]
    exact ⟨k - 1, rfl, by omega⟩
  · rw [share_ne ho, Nat.add_zero] at hu
    rw [Function.update_of_ne ho, hu]
    exact h o' (hu ▸ ho')

end Covered

end LiteBSD.Lib
