/-
# `LiteBSD.Heap.Model` — `kmalloc` and `kfree`

The kernel heap of `src/heap.c`.  Memory is the map from addresses to the
32-bit words stored there; a `struct heap_block` is three words, `size`,
`magic` and `next`, in front of its payload.  The bump pointer, the head of
the address-ordered free list and the byte counter are the three statics of
the source.

The loops over the free list take a number of steps as fuel.  `walkFuel` is
more than the number of headers that fit in the heap, and
`LiteBSD.Heap.Refine` shows that it is never used up.
-/
import LiteBSD.Exec
import Mathlib.Logic.Function.Basic

namespace LiteBSD

/-- `HEAP_START` -/
def heapStart : Nat := 0x400000
/-- `HEAP_SIZE` -/
def heapSize : Nat := 0x1000000
/-- `heap_end` -/
def heapEnd : Nat := heapStart + heapSize
/-- `sizeof(struct heap_block)` -/
def headerSize : Nat := 12
/-- `HEAP_BLOCK_ALLOCATED` -/
def blockAllocated : Nat := 0x4C425344
/-- `HEAP_BLOCK_FREE` -/
def blockFree : Nat := 0x46524545

structure Heap where
  mem : Nat → Nat
  heapBegin : Nat
  freeList : Nat
  heapUsed : Nat

namespace Heap

/-- Storing one word. -/
def store (h : Heap) (a v : Nat) : Heap :=
  { h with mem := Function.update h.mem a v }

def size (h : Heap) (block : Nat) : Nat := h.mem block
def magic (h : Heap) (block : Nat) : Nat := h.mem (block + 4)
def next (h : Heap) (block : Nat) : Nat := h.mem (block + 8)

def setSize (h : Heap) (block v : Nat) : Heap := h.store block v
def setMagic (h : Heap) (block v : Nat) : Heap := h.store (block + 4) v
def setNext (h : Heap) (block v : Nat) : Heap := h.store (block + 8) v

end Heap

/-- Where `struct heap_block **link` points: at `free_list` itself or at
the `next` field of a block. -/
inductive Link where
  | head
  | next (block : Nat)
deriving DecidableEq, Repr

/-- `*link` -/
def Link.get (h : Heap) : Link → Nat
  | .head => h.freeList
  | .next block => h.next block

/-- `*link = v` -/
def Link.set (h : Heap) (v : Nat) : Link → Heap
  | .head => { h with freeList := v }
  | .next block => h.setNext block v

def heapUsedBytes (h : Heap) : Nat := h.heapUsed

def alignSize (size : Nat) : Nat := u32 (size + 3) / 4 * 4

/-- More steps than there is room for headers below the bump pointer. -/
def walkFuel (h : Heap) : Nat := h.heapBegin

/-- The first-fit walk of `kmalloc`: the link and the block it stops at,
`0` when the list is exhausted. -/
def findFit (h : Heap) (requested : Nat) : Nat → Link → Nat → Option (Link × Nat)
  | 0, _, _ => none
  | fuel + 1, link, block =>
      if block = 0 then some (link, 0)
      else if h.size block ≥ requested then some (link, block)
      else findFit h requested fuel (.next block) (h.next block)

/-- The last stores into the block handed out from the free list. -/
def handOut (h : Heap) (block : Nat) : Heap :=
  let h := h.setNext block 0
  let h := h.setMagic block blockAllocated
  { h with heapUsed := u32 (h.heapUsed + u32 (headerSize + h.size block)) }

/-- Unlinking the block found, after splitting it when it is oversized. -/
def takeBlock (h : Heap) (requested : Nat) (link : Link) (block : Nat) : Heap :=
  let h :=
    if h.size block ≥ u32 (requested + headerSize + 16) then
      let tail := u32 (u32 (block + headerSize) + requested)
      let h := h.setSize tail (sub32 (sub32 (h.size block) requested) headerSize)
      let h := h.setMagic tail blockFree
      let h := h.setNext tail (h.next block)
      let h := h.setSize block requested
      link.set h tail
    else
      link.set h (h.next block)
  handOut h block

/-- A new block at the bump pointer. -/
def bumpBlock (h : Heap) (requested total : Nat) : Heap :=
  let block := h.heapBegin
  let h := { h with heapBegin := u32 (h.heapBegin + total) }
  let h := h.setSize block requested
  let h := h.setMagic block blockAllocated
  let h := h.setNext block 0
  { h with heapUsed := u32 (h.heapUsed + total) }

/-- `kmalloc`: the pointer returned, `0` for `NULL`. -/
def kmalloc (h : Heap) (size : Nat) : Exec (Heap × Nat) :=
  if size = 0 then .ret (h, 0)
  else if size > heapSize - headerSize then .panic "Allocation too large."
  else
    let requested := alignSize size
    match findFit h requested (walkFuel h) .head h.freeList with
    | none => .hang
    | some (link, block) =>
        if block ≠ 0 then
          .ret (takeBlock h requested link block, u32 (block + headerSize))
        else
          let total := u32 (headerSize + requested)
          if h.heapBegin > sub32 heapEnd total then .panic "Out of memory."
          else .ret (bumpBlock h requested total, u32 (h.heapBegin + headerSize))

/-- The walk of `kfree` to the place of `block` in the free list. -/
def findPlace (h : Heap) (block : Nat) : Nat → Link → Option Link
  | 0, _ => none
  | fuel + 1, link =>
      if link.get h ≠ 0 ∧ link.get h < block then
        findPlace h block fuel (.next (link.get h))
      else some link

/-- The walk of `kfree` to the list predecessor of `block`. -/
def findPrevious (h : Heap) (block : Nat) : Nat → Nat → Option Nat
  | 0, _ => none
  | fuel + 1, previous =>
      if h.next previous ≠ block then findPrevious h block fuel (h.next previous)
      else some previous

/-- `p` takes over the block `q` that follows it in memory and in the list. -/
def absorb (h : Heap) (p q : Nat) : Heap :=
  let h := h.setSize p (u32 (h.size p + u32 (headerSize + h.size q)))
  h.setNext p (h.next q)

/-- Merging `block` with the free block that follows it in memory. -/
def mergeNext (h : Heap) (block : Nat) : Heap :=
  if h.next block ≠ 0 ∧ u32 (u32 (block + headerSize) + h.size block) = h.next block then
    absorb h block (h.next block)
  else h

/-- Merging `block` into its list predecessor when that ends where it starts. -/
def mergePrevious (h : Heap) (previous block : Nat) : Heap :=
  if u32 (u32 (previous + headerSize) + h.size previous) = block then
    absorb h previous block
  else h

/-- The merges of `kfree`, once `block` is back on the list at `link`. -/
def coalesce (h : Heap) (link : Link) (block : Nat) : Exec Heap :=
  let h := mergeNext h block
  if link = .head then .ret h
  else
    match findPrevious h block (walkFuel h) h.freeList with
    | none => .hang
    | some previous => .ret (mergePrevious h previous block)

def kfree (h : Heap) (ptr : Nat) : Exec Heap :=
  if ptr = 0 then .ret h
  else
    let block := sub32 ptr headerSize
    if h.magic block ≠ blockAllocated ∨ block < heapStart ∨ block ≥ h.heapBegin then .ret h
    else
      let h := { h with heapUsed := sub32 h.heapUsed (u32 (headerSize + h.size block)) }
      match findPlace h block (walkFuel h) .head with
      | none => .hang
      | some link =>
          let h := h.setMagic block blockFree
          let h := h.setNext block (link.get h)
          let h := link.set h block
          coalesce h link block

end LiteBSD
