/-
# `LiteBSD.Tasks.Charges` — what the heap is charged with, rings included

`heapUsed` leaves out the ring of a pipe, which never comes or goes without its
pipe.  Where a pipe may be lost the 4096 bytes are most of the loss, so here
they are counted (`heapCharged`): `sys_pipe` takes the block for the ring right
after the one for the pipe.  Counted are also the blocks that a call has taken
and not yet made anything of, so that one it forgets is not forgotten here.

A charge is compared address by address.  It is the same when nothing has
changed below the old end of the supply and nothing is held above it
(`heapCharged_same`), and greater when nothing was given back and something was
taken (`heapCharged_lt`).
-/
import LiteBSD.Tasks.Blocks
import Mathlib.Algebra.Order.BigOperators.Group.Finset

namespace LiteBSD.Tasks

open Lib Files

/-- The charge for the ring of the pipe at `p`. -/
def ringCharge (slack : Nat → Nat) (k : Kernel) (p : Nat) : Nat :=
  if (k.pipe p).isSome then headerSize + (alignSize pipeSize + slack (p + 1)) else 0

/-- The charge for a block of which nothing has been made. -/
def blockCharge (slack : Nat → Nat) (k : Kernel) (b : Nat) : Nat :=
  match k.block b with
  | none => 0
  | some size => headerSize + (alignSize size + slack b)

/-- All that is charged for what is at `b`. -/
def heldAt (slack : Nat → Nat) (k : Kernel) (b : Nat) : Nat :=
  charge slack k b + ringCharge slack k b + blockCharge slack k b

/-- `heap_used`, where `kmalloc` added `slack b` to the request for the block of
the object at `b`. -/
def heapCharged (slack : Nat → Nat) (k : Kernel) : Nat := (Finset.range k.vfs.nextObj).sum (heldAt slack k)

section Charged

variable {k k' : Kernel} {slack : Nat → Nat} {b : Nat}

theorem heldAt_fresh (h : Steady k k) (hb : k.vfs.nextObj ≤ b) : heldAt slack k b = 0 := by
  have hpipe : k.pipe b = none := by
    by_contra hne
    exact absurd (h.pipe b hne) (Nat.not_lt.mpr hb)
  have hblock : k.block b = none := by
    by_contra hne
    exact absurd (h.block b hne) (Nat.not_lt.mpr hb)
  rw [heldAt, charge_fresh h hb, ringCharge, hpipe, blockCharge, hblock]
  rfl

theorem heapCharged_eq (h : Steady k k) {n : Nat} (hn : k.vfs.nextObj ≤ n) :
    heapCharged slack k = (Finset.range n).sum (heldAt slack k) := by
  refine Finset.sum_subset (Finset.range_mono hn) fun b _ hb => ?_
  exact heldAt_fresh h (Nat.le_of_not_lt fun hlt => hb (Finset.mem_range.mpr hlt))

/-- An object is charged with something. -/
theorem heldAt_pos (h : blockOf k b ≠ none) : 0 < heldAt slack k b := by
  obtain ⟨size, hsize⟩ := Option.ne_none_iff_exists'.mp h
  have hheader : 0 < headerSize := by decide
  rw [heldAt, charge, hsize]
  dsimp only
  omega

/-- The charge depends on what is at the address. -/
theorem heldAt_congr (hobject : blockOf k' b = blockOf k b) (hpipe : (k'.pipe b).isSome = (k.pipe b).isSome)
    (hblock : k'.block b = k.block b) : heldAt slack k' b = heldAt slack k b := by
  unfold heldAt charge ringCharge blockCharge
  rw [hobject, hpipe, hblock]

theorem heapCharged_same (h : Steady k k) (hsup : k.vfs.nextObj ≤ k'.vfs.nextObj)
    (hsame : ∀ b, heldAt slack k' b = heldAt slack k b) : heapCharged slack k' = heapCharged slack k := by
  rw [heapCharged_eq h hsup, heapCharged]
  exact Finset.sum_congr rfl fun b _ => hsame b

theorem heapCharged_lt (h : Steady k k) (hold : ∀ b < k.vfs.nextObj, heldAt slack k b ≤ heldAt slack k' b)
    (hsup : k.vfs.nextObj ≤ k'.vfs.nextObj) (hb : b < k'.vfs.nextObj) (hnew : k.vfs.nextObj ≤ b)
    (hheld : blockOf k' b ≠ none) : heapCharged slack k < heapCharged slack k' := by
  rw [heapCharged_eq h hsup, heapCharged]
  refine Finset.sum_lt_sum (fun c _ => ?_) ⟨b, Finset.mem_range.mpr hb, ?_⟩
  · rcases Nat.lt_or_ge c k.vfs.nextObj with hlt | hge
    · exact hold c hlt
    · rw [heldAt_fresh h hge]
      exact Nat.zero_le _
  · rw [heldAt_fresh h hnew]
    exact heldAt_pos hheld

end Charged

end LiteBSD.Tasks
