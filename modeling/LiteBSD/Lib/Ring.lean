/-
# `LiteBSD.Lib.Ring` — a bounded queue in a circular buffer

A ring is an array with the index to read next, the index to write next and
the number of elements between them.  Seen from outside it is the list of
its `contents`, first in, first out.

Storing into a FULL ring drops the element without a word, which is how the
writers of such code behave; `contents_storeAll` therefore says what is kept
of a block (as much as there is room for) and not that it is kept.
-/
import Mathlib.Data.List.Basic
import Mathlib.Logic.Function.Basic

namespace LiteBSD.Lib

structure RingBuffer (α : Type) where
  cells : Nat → α
  head : Nat
  tail : Nat
  count : Nat

namespace RingBuffer

variable {α : Type} {cap : Nat} {r : RingBuffer α}

/-- What is in the ring, oldest first. -/
def contents (cap : Nat) (r : RingBuffer α) : List α :=
  (List.range r.count).map fun i => r.cells ((r.head + i) % cap)

/-- The two indices and the count fit together. -/
structure Ok (cap : Nat) (r : RingBuffer α) : Prop where
  pos : 0 < cap
  head : r.head < cap
  tail : r.tail = (r.head + r.count) % cap
  count : r.count ≤ cap

/-- Store one element if there is room. -/
def store (cap : Nat) (r : RingBuffer α) (x : α) : RingBuffer α :=
  if r.count < cap then
    { r with
      cells := Function.update r.cells r.tail x
      tail := (r.tail + 1) % cap
      count := r.count + 1 }
  else r

/-- Store a block, one element after the other. -/
def storeAll (cap : Nat) (r : RingBuffer α) : List α → RingBuffer α
  | [] => r
  | x :: xs => storeAll cap (r.store cap x) xs

/-- The loop that reads `k` elements: what it reads and where it stops. -/
def readLoop (cap : Nat) (cells : Nat → α) : Nat → Nat → List α × Nat
  | 0, head => ([], head)
  | k + 1, head =>
      let (xs, head') := readLoop cap cells k ((head + 1) % cap)
      (cells head :: xs, head')

/-- Take `k` elements out. -/
def take (cap : Nat) (r : RingBuffer α) (k : Nat) : List α × RingBuffer α :=
  let (xs, head) := readLoop cap r.cells k r.head
  (xs, { r with head := head, count := r.count - k })

@[simp] theorem length_contents : (r.contents cap).length = r.count := by
  simp [contents]

/-- Two places less than a turn apart are different. -/
theorem mod_ne_of_lt {h i n : Nat} (hi : i < n) (hn : n < cap) : (h + i) % cap ≠ (h + n) % cap := by
  intro he
  have hdvd : cap ∣ (h + n) - (h + i) :=
    Nat.dvd_of_mod_eq_zero (Nat.sub_mod_eq_zero_of_mod_eq he.symm)
  have hzero : (h + n) - (h + i) = 0 := Nat.eq_zero_of_dvd_of_lt hdvd (by omega)
  omega

theorem store_of_full (h : cap ≤ r.count) (x : α) : r.store cap x = r :=
  if_neg (Nat.not_lt.mpr h)

theorem Ok.store (h : Ok cap r) (x : α) : Ok cap (r.store cap x) := by
  unfold RingBuffer.store
  split
  · rename_i hroom
    refine ⟨h.pos, h.head, ?_, hroom⟩
    show (r.tail + 1) % cap = (r.head + (r.count + 1)) % cap
    rw [h.tail, Nat.mod_add_mod, Nat.add_assoc]
  · exact h

theorem Ok.contents_store (h : Ok cap r) (hroom : r.count < cap) (x : α) :
    (r.store cap x).contents cap = r.contents cap ++ [x] := by
  unfold RingBuffer.store
  rw [if_pos hroom]
  simp only [contents, List.range_succ, List.map_append, List.map_cons, List.map_nil]
  congr 1
  · refine List.map_congr_left fun i hi => ?_
    rw [h.tail, Function.update_of_ne]
    exact mod_ne_of_lt (List.mem_range.mp hi) hroom
  · rw [h.tail, Function.update_self]

/-- An element is stored as far as there is room. -/
theorem Ok.contents_store_take (h : Ok cap r) (x : α) :
    (r.store cap x).contents cap = r.contents cap ++ [x].take (cap - r.count) := by
  by_cases hroom : r.count < cap
  · rw [h.contents_store hroom, List.take_of_length_le]
    rw [List.length_singleton]
    omega
  · have hfull : cap ≤ r.count := Nat.le_of_not_lt hroom
    rw [store_of_full hfull, Nat.sub_eq_zero_of_le hfull, List.take_zero, List.append_nil]

theorem Ok.storeAll (h : Ok cap r) (xs : List α) : Ok cap (r.storeAll cap xs) := by
  induction xs generalizing r with
  | nil => exact h
  | cons x xs ih => exact ih (h.store x)

/-- A block is stored as far as there is room. -/
theorem Ok.contents_storeAll (h : Ok cap r) (xs : List α) :
    (r.storeAll cap xs).contents cap = r.contents cap ++ xs.take (cap - r.count) := by
  induction xs generalizing r with
  | nil => rw [List.take_nil, List.append_nil]; rfl
  | cons x xs ih =>
      rw [RingBuffer.storeAll, ih (h.store x)]
      by_cases hroom : r.count < cap
      · have hcount : (r.store cap x).count = r.count + 1 := by
          unfold RingBuffer.store
          rw [if_pos hroom]
        obtain ⟨k, hk⟩ : ∃ k, cap - r.count = k + 1 := ⟨cap - r.count - 1, by omega⟩
        rw [h.contents_store hroom, hcount, hk, List.take_succ_cons, List.append_assoc,
          show cap - (r.count + 1) = k by omega]
        rfl
      · have hfull : cap ≤ r.count := Nat.le_of_not_lt hroom
        rw [store_of_full hfull, Nat.sub_eq_zero_of_le hfull, List.take_zero, List.take_zero]

theorem readLoop_eq {cells : Nat → α} (k : Nat) {head : Nat} (hhead : head < cap) :
    readLoop cap cells k head =
      ((List.range k).map fun i => cells ((head + i) % cap), (head + k) % cap) := by
  induction k generalizing head with
  | zero => simp [readLoop, Nat.mod_eq_of_lt hhead]
  | succ k ih =>
      have hnext : (head + 1) % cap < cap := Nat.mod_lt _ (Nat.zero_lt_of_lt hhead)
      simp only [readLoop, ih hnext, List.range_succ_eq_map, List.map_cons, List.map_map,
        Nat.add_zero, Nat.mod_eq_of_lt hhead, Nat.mod_add_mod, Prod.mk.injEq, List.cons.injEq,
        true_and]
      refine ⟨List.map_congr_left fun i _ => ?_, ?_⟩
      · rw [Function.comp_apply, Nat.succ_eq_add_one, Nat.add_assoc, Nat.add_comm 1 i]
      · rw [Nat.add_assoc, Nat.add_comm 1 k]

theorem Ok.take (h : Ok cap r) {k : Nat} (hk : k ≤ r.count) : Ok cap (r.take cap k).2 := by
  simp only [RingBuffer.take, readLoop_eq k h.head]
  refine ⟨h.pos, Nat.mod_lt _ h.pos, ?_, Nat.le_trans (Nat.sub_le _ _) h.count⟩
  show r.tail = ((r.head + k) % cap + (r.count - k)) % cap
  rw [h.tail, Nat.mod_add_mod, Nat.add_assoc, Nat.add_sub_of_le hk]

/-- What is read is the front, and the rest stays. -/
theorem Ok.take_append (h : Ok cap r) {k : Nat} (hk : k ≤ r.count) :
    (r.take cap k).1 ++ (r.take cap k).2.contents cap = r.contents cap := by
  simp only [RingBuffer.take, readLoop_eq k h.head, contents, Nat.mod_add_mod]
  obtain ⟨j, hj⟩ : ∃ j, r.count = k + j := ⟨r.count - k, by omega⟩
  rw [hj, Nat.add_sub_cancel_left, List.range_add, List.map_append, List.map_map]
  congr 1
  refine List.map_congr_left fun i _ => ?_
  rw [Function.comp_apply, Nat.add_assoc]

/-- What is read next is the oldest. -/
theorem Ok.contents_eq_cons (h : Ok cap r) (hpos : 0 < r.count) :
    r.contents cap = r.cells r.head :: (r.take cap 1).2.contents cap :=
  (h.take_append hpos).symm

theorem Ok.length_take (h : Ok cap r) (k : Nat) : (r.take cap k).1.length = k := by
  simp [RingBuffer.take, readLoop_eq k h.head]

end RingBuffer

end LiteBSD.Lib
