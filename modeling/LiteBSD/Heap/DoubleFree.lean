/-
# `LiteBSD.Heap.DoubleFree` — freeing a pointer twice in a row

`kfree` tells a block in use from any other by the magic word in its header.
The header of a block that was just freed may have become payload of a free
block: its predecessor has taken it over, or it has taken over its successor.

| merge | stores |
| with the next block | size and `next` of the block |
| into the previous block | size and `next` of that one, which lies below |

Neither stores a magic word, so that the word still says that the block is
free (`kfree_marks`), and the second call returns at its first test.
-/
import LiteBSD.Heap.Payload

namespace LiteBSD

open Lib

section DoubleFree

variable {h h' : Heap} {pre post : List Seg} {s B p : Nat} {st : HeapState}

/-- Whatever a block is merged with, its magic word is left. -/
theorem kfree_marks (hrep : Rep h (pre ++ ⟨s, false⟩ :: post)) (hB : heapStart + span headerSize pre = B)
    (hret : kfree h (B + headerSize) = .ret h') : h'.magic B = blockFree := by
  have hbelow : ∀ a ∈ freeAddrs headerSize heapStart pre, B + 4 ≠ a ∧ B + 4 ≠ a + 8 := by
    intro a ha
    have hend := (freeAddrs_bounds ha).2
    simp only [headerSize] at hend hB
    omega
  have hmem := kfree_mem hrep hB hret (y := B + 4) (by omega) hbelow
  rwa [if_pos rfl] at hmem

/-- `kfree` of what is not in use does nothing. -/
theorem kfree_of_magic (hmagic : h.magic (sub32 p headerSize) ≠ blockAllocated) : kfree h p = .ret h := by
  unfold kfree
  split
  · rfl
  · exact if_pos (.inl hmagic)

/-- Freeing a pointer twice in a row is freeing it once. -/
theorem double_free_harmless (hs : heapSystem.Reach st) (hp : p ∈ st.live) :
    ∃ h', kfree st.heap p = .ret h' ∧ (kfree st.heap p >>= fun h => kfree h p) = .ret h' := by
  obtain ⟨bs, hown⟩ := heap_owned hs
  obtain ⟨pre, k, post, rfl, rfl⟩ := hown.place hp
  obtain ⟨h', -, hret, -⟩ := hown.kfree hp
  refine ⟨h', hret, ?_⟩
  have hmarked := kfree_marks hown.toRep rfl hret
  have hblock : sub32 (heapStart + span headerSize pre + headerSize) headerSize = heapStart + span headerSize pre := by
    have hfits := hown.fits
    rw [hown.begin_eq, span_append] at hfits
    simp only [sub32, heapEnd, heapStart, heapSize, headerSize] at hfits ⊢
    omega
  rw [hret, Exec.ret_bind]
  apply kfree_of_magic
  rw [hblock, hmarked]
  decide

/-- The first allocation, freed twice. -/
theorem first_allocation_freed_twice : ∃ h', kfree (bumpBlock bootHeap 8 20) (heapStart + headerSize) = .ret h' ∧
    (kfree (bumpBlock bootHeap 8 20) (heapStart + headerSize) >>= fun h => kfree h (heapStart + headerSize)) =
      .ret h' := by
  have hboot : heapSystem.Reach ⟨bootHeap, [], false⟩ := .init ⟨rfl, rfl, rfl, rfl, rfl⟩
  have hreach : heapSystem.Reach ⟨bumpBlock bootHeap 8 20, [heapStart + headerSize], true⟩ :=
    .step hboot trivial (.alloc kmalloc_bootHeap (by decide))
  exact double_free_harmless hreach List.mem_cons_self

end DoubleFree

end LiteBSD
