/-
# `LiteBSD.Heap.Invariant` — the heap under any sequence of calls

The heap together with its clients: a client may ask for a block, give back
a pointer it holds, and write words inside the payloads it holds.  In every
state reached so the words of the heap represent a tiling whose blocks in
use are exactly the pointers held, and giving all of them back, in whatever
order, leaves one free block.
-/
import LiteBSD.Lib.Runs
import LiteBSD.Heap.Refine

namespace LiteBSD

open Lib

/-! ## The system -/

/-- The heap, the pointers handed out and not yet given back, and whether
anything was ever handed out. -/
structure HeapState where
  heap : Heap
  live : List Nat
  allocated : Bool

inductive HeapOp where
  | kmalloc (size : Nat)
  | kfree (ptr : Nat)
  | write (a v : Nat)

/-- One call, or one store of a client.  The words of a payload are the
aligned ones: a store of fewer bytes changes the word around it. -/
inductive HeapStep : HeapState → HeapOp → HeapState → Prop
  | null {s : HeapState} {n : Nat} {h' : Heap} : kmalloc s.heap n = .ret (h', 0) →
      HeapStep s (.kmalloc n) { s with heap := h' }
  | alloc {s : HeapState} {n p : Nat} {h' : Heap} : kmalloc s.heap n = .ret (h', p) → p ≠ 0 →
      HeapStep s (.kmalloc n) ⟨h', p :: s.live, true⟩
  | free {s : HeapState} {p : Nat} {h' : Heap} : p = 0 ∨ p ∈ s.live →
      kfree s.heap p = .ret h' → HeapStep s (.kfree p) ⟨h', s.live.erase p, s.allocated⟩
  | write {s : HeapState} {p a v : Nat} : p ∈ s.live → 4 ∣ a → p ≤ a →
      a < p + s.heap.size (p - headerSize) →
      HeapStep s (.write a v) { s with heap := s.heap.store a v }

/-- The statics of `heap.c` as the kernel image sets them, over memory with
any contents. -/
def HeapBoot (s : HeapState) : Prop :=
  s.heap.heapBegin = heapStart ∧ s.heap.freeList = 0 ∧ s.heap.heapUsed = 0 ∧
    s.live = [] ∧ s.allocated = false

def heapSystem : System HeapState HeapOp where
  init := HeapBoot
  step := HeapStep

/-! ## The invariant -/

/-- The heap represents `bs`, and the pointers held are those of its blocks
in use. -/
structure Owned (s : HeapState) (bs : List Seg) : Prop extends Rep s.heap bs where
  nodup : s.live.Nodup
  held : ∀ p, p ∈ s.live ↔ ∃ a ∈ liveAddrs headerSize heapStart bs, p = a + headerSize
  started : s.allocated = true → bs ≠ []

theorem Owned.boot {s : HeapState} (h : HeapBoot s) : Owned s [] := by
  obtain ⟨hb, hf, hu, hl, ha⟩ := h
  refine { heads := ?_, chain := ?_, begin_eq := ?_, fits := ?_, used_eq := ?_, sep := .nil,
           aligned := ?_, nodup := ?_, held := ?_, started := ?_ }
  · simp [layout]
  · exact hf
  · simpa using hb
  · rw [hb]
    decide
  · simpa [usedBytes] using hu
  · simp
  · rw [hl]
    exact .nil
  · simp [hl]
  · simp [ha]

/-- A block of use to somebody is found again from its pointer. -/
theorem Owned.place {s : HeapState} {bs : List Seg} (h : Owned s bs) {p : Nat}
    (hp : p ∈ s.live) : ∃ pre k post, bs = pre ++ ⟨k, false⟩ :: post ∧
      p = heapStart + span headerSize pre + headerSize := by
  obtain ⟨a, ha, rfl⟩ := (h.held p).mp hp
  obtain ⟨pre, k, post, rfl, rfl⟩ := liveAddrs_split ha
  exact ⟨pre, k, post, rfl, rfl⟩

theorem Owned.zero_notMem {s : HeapState} {bs : List Seg} (h : Owned s bs) : 0 ∉ s.live := by
  intro h0
  obtain ⟨a, -, ha⟩ := (h.held 0).mp h0
  simp only [headerSize] at ha
  omega

/-- A call to `kmalloc` that returns hands out one block, or nothing for a
request of no bytes. -/
theorem Owned.kmalloc {s : HeapState} {bs : List Seg} (h : Owned s bs) {n p : Nat} {h' : Heap}
    (hret : LiteBSD.kmalloc s.heap n = .ret (h', p)) :
    (p = 0 ∧ h' = s.heap) ∨ (p ≠ 0 ∧ ∃ bs', Owned ⟨h', p :: s.live, true⟩ bs') := by
  by_cases hn : n = 0
  · subst hn
    have h0 : LiteBSD.kmalloc s.heap 0 = .ret (s.heap, 0) := by simp [LiteBSD.kmalloc]
    rw [h0] at hret
    cases hret
    exact Or.inl ⟨rfl, rfl⟩
  rcases kmalloc_refines h.toRep hn with ⟨g, o, bs', hg, hstep, hrep⟩ | ⟨msg, hg⟩
  · rw [hg] at hret
    cases hret
    refine Or.inr ⟨by simp [headerSize], bs', ?_⟩
    refine { hrep with nodup := ?_, held := ?_, started := fun _ => hstep.ne_nil }
    · refine List.nodup_cons.mpr ⟨?_, h.nodup⟩
      intro hmem
      obtain ⟨a, ha, hpa⟩ := (h.held _).mp hmem
      rw [← Nat.add_right_cancel hpa] at ha
      exact hstep.fresh (by decide) ha
    · intro q
      simp only [List.mem_cons, h.held, hstep.mem_live]
      constructor
      · rintro (rfl | ⟨a, ha, rfl⟩)
        · exact ⟨_, Or.inl rfl, rfl⟩
        · exact ⟨a, Or.inr ha, rfl⟩
      · rintro ⟨a, rfl | ha, rfl⟩
        · exact Or.inl rfl
        · exact Or.inr ⟨a, ha, rfl⟩
  · rw [hg] at hret
    cases hret

/-- `kfree` of a pointer held returns, and takes its block back. -/
theorem Owned.kfree {s : HeapState} {bs : List Seg} (h : Owned s bs) {p : Nat}
    (hp : p ∈ s.live) : ∃ h' bs', LiteBSD.kfree s.heap p = .ret h' ∧
      Owned ⟨h', s.live.erase p, s.allocated⟩ bs' ∧ h'.heapBegin = s.heap.heapBegin := by
  obtain ⟨pre, k, post, rfl, rfl⟩ := h.place hp
  obtain ⟨h', bs', hret, hstep, hrep⟩ := kfree_refines h.toRep
  refine ⟨h', bs', hret, ?_, ?_⟩
  · refine { hrep with nodup := h.nodup.erase _, held := ?_, started := fun _ => hstep.ne_nil }
    intro q
    simp only [h.nodup.mem_erase_iff, h.held, hstep.mem_live (by decide : 0 < headerSize)]
    constructor
    · rintro ⟨hne, a, ha, rfl⟩
      exact ⟨a, ⟨ha, fun he => hne (by rw [he])⟩, rfl⟩
    · rintro ⟨a, ⟨ha, hne⟩, rfl⟩
      exact ⟨fun he => hne (Nat.add_right_cancel he), a, ha, rfl⟩
  · rw [hrep.begin_eq, h.begin_eq, hstep.span_eq]

/-- A store inside the payload of a block in use meets no header. -/
theorem Owned.write {s : HeapState} {bs : List Seg} (h : Owned s bs) {p a v : Nat}
    (hp : p ∈ s.live) (hlo : p ≤ a) (hhi : a < p + s.heap.size (p - headerSize)) :
    Owned { s with heap := s.heap.store a v } bs := by
  obtain ⟨x, hx, rfl⟩ := (h.held p).mp hp
  obtain ⟨b, hb, -⟩ := mem_liveAddrs.mp hx
  rw [Nat.add_sub_cancel, (h.heads _ hb).1] at hhi
  have hc : Core (s.heap.store a v) bs := by
    refine h.toCore.congr rfl ?_
    intro y hy i hi
    refine Heap.store_mem_of_ne _ _ _ ?_
    have := layout_disjoint hb hy
    simp only [headerSize] at *
    rcases this with rfl | h₁ | h₁
    · simp only
      omega
    · omega
    · omega
  exact { hc with
    begin_eq := h.begin_eq
    fits := h.fits
    used_eq := h.used_eq
    sep := h.sep
    aligned := h.aligned
    nodup := h.nodup
    held := h.held
    started := h.started }

/-- Every step keeps the invariant. -/
theorem Owned.step {s s' : HeapState} {op : HeapOp} (h : ∃ bs, Owned s bs)
    (hs : HeapStep s op s') : ∃ bs, Owned s' bs := by
  obtain ⟨bs, h⟩ := h
  cases hs with
  | null hret =>
      rcases h.kmalloc hret with ⟨-, rfl⟩ | ⟨hne, -⟩
      · exact ⟨bs, h⟩
      · exact absurd rfl hne
  | alloc hret hp =>
      rcases h.kmalloc hret with ⟨h0, -⟩ | ⟨-, hbs⟩
      · exact absurd h0 hp
      · exact hbs
  | @free p h' hp hret =>
      rcases hp with rfl | hp
      · have h0 : LiteBSD.kfree s.heap 0 = .ret s.heap := by simp [LiteBSD.kfree]
        rw [h0] at hret
        cases hret
        rw [List.erase_of_not_mem h.zero_notMem]
        exact ⟨bs, h⟩
      · obtain ⟨g, bs', hg, hown, -⟩ := h.kfree hp
        rw [hg] at hret
        cases hret
        exact ⟨bs', hown⟩
  | write hp _ hlo hhi => exact ⟨bs, h.write hp hlo hhi⟩

theorem heap_owned {s : HeapState} (hs : heapSystem.Reach s) : ∃ bs, Owned s bs :=
  System.ReachVia.invariant (I := fun s => ∃ bs, Owned s bs) (fun _ h => ⟨[], Owned.boot h⟩)
    (fun _ _ _ h _ hstep => Owned.step h hstep) hs

/-! ## Giving everything back -/

/-- A list of pointers freed one after another. -/
def freeAll : Heap → List Nat → Exec Heap
  | h, [] => .ret h
  | h, p :: ps => do
      let h ← kfree h p
      freeAll h ps

/-- Freeing what is held returns at every call and leaves nothing in use. -/
theorem Owned.freeAll {s : HeapState} {bs : List Seg} (h : Owned s bs) :
    ∃ h' bs', LiteBSD.freeAll s.heap s.live = .ret h' ∧ Owned ⟨h', [], s.allocated⟩ bs' ∧
      h'.heapBegin = s.heap.heapBegin := by
  obtain ⟨heap, live, al⟩ := s
  induction live generalizing heap bs with
  | nil => exact ⟨heap, bs, rfl, h, rfl⟩
  | cons p ps ih =>
      obtain ⟨g, bs₁, hg, hown, hbeg⟩ := h.kfree List.mem_cons_self
      simp only [List.erase_cons_head] at hown
      obtain ⟨h', bs', hret, hown', hbeg'⟩ := ih g hown
      refine ⟨h', bs', ?_, hown', hbeg'.trans hbeg⟩
      simp only [LiteBSD.freeAll]
      rw [hg]
      exact hret

/-- With nothing in use, a heap that was used is one free block. -/
theorem Owned.single {s : HeapState} {bs : List Seg} (h : Owned s bs) (hl : s.live = [])
    (hal : s.allocated = true) : ∃ k, bs = [⟨k, true⟩] := by
  have hfree : ∀ b ∈ bs, b.free = true := by
    intro b hb
    cases hf : b.free with
    | true => rfl
    | false =>
        obtain ⟨pre, post, rfl⟩ := List.append_of_mem hb
        have : heapStart + span headerSize pre + headerSize ∈ s.live :=
          (h.held _).mpr ⟨_, by simp [hf], rfl⟩
        rw [hl] at this
        exact absurd this (List.not_mem_nil)
  rcases h.sep.single hfree with rfl | hk
  · exact absurd rfl (h.started hal)
  · exact hk

/-! ## The heap in every reachable state -/

/-- The blocks `bs` cover the heap without gap or overlap, the free list is
exactly the free ones by increasing address, and what is not free is held by
a client and counted. -/
structure TiledBy (s : HeapState) (bs : List Seg) : Prop where
  covers : s.heap.heapBegin = heapStart + span headerSize bs
  sizes : ∀ x ∈ layout headerSize heapStart bs, s.heap.size x.1 = x.2.size
  inUse : ∀ x ∈ layout headerSize heapStart bs, x.2.free = false →
    s.heap.magic x.1 = blockAllocated ∧ x.1 ∉ freeAddrs headerSize heapStart bs ∧
      x.1 + headerSize ∈ s.live
  onList : ∀ x ∈ layout headerSize heapStart bs, x.2.free = true →
    s.heap.magic x.1 = blockFree ∧ (freeAddrs headerSize heapStart bs).count x.1 = 1 ∧
      x.1 + headerSize ∉ s.live
  held : s.live.Nodup ∧ ∀ p ∈ s.live, ∃ x ∈ layout headerSize heapStart bs,
    x.2.free = false ∧ p = x.1 + headerSize
  list : Linked s.heap.next s.heap.freeList (freeAddrs headerSize heapStart bs) 0
  increasing : (freeAddrs headerSize heapStart bs).Pairwise (· < ·)
  coalesced : Separated bs
  counted : s.heap.heapUsed = usedBytes headerSize bs

/-- One address is one block. -/
theorem layout_unique {bs : List Seg} {a : Nat} {b c : Seg}
    (hb : (a, b) ∈ layout headerSize heapStart bs)
    (hc : (a, c) ∈ layout headerSize heapStart bs) : b = c := by
  rcases layout_disjoint hb hc with h | h | h
  · exact (Prod.mk.inj h).2
  · simp only [headerSize] at h
    omega
  · simp only [headerSize] at h
    omega

theorem Owned.tiled {s : HeapState} {bs : List Seg} (h : Owned s bs) : TiledBy s bs := by
  have hsorted := freeAddrs_sorted (by decide : 0 < headerSize) heapStart bs
  refine { covers := h.begin_eq, sizes := fun x hx => (h.heads x hx).1, inUse := ?_,
           onList := ?_, held := ⟨h.nodup, ?_⟩, list := h.chain, increasing := hsorted,
           coalesced := h.sep, counted := h.used_eq }
  · rintro ⟨a, b⟩ hx (hf : b.free = false)
    refine ⟨by rw [(h.heads _ hx).2]; simp [magicOf, hf], ?_, ?_⟩
    · intro hmem
      obtain ⟨c, hc, hcf⟩ := mem_freeAddrs.mp hmem
      rw [layout_unique hx hc, hcf] at hf
      cases hf
    · exact (h.held _).mpr ⟨a, mem_liveAddrs.mpr ⟨b, hx, hf⟩, rfl⟩
  · rintro ⟨a, b⟩ hx (hf : b.free = true)
    refine ⟨by rw [(h.heads _ hx).2]; simp [magicOf, hf], ?_, ?_⟩
    · exact List.count_eq_one_of_mem (freeAddrs_nodup heapStart bs)
        (mem_freeAddrs.mpr ⟨b, hx, hf⟩)
    · intro hmem
      obtain ⟨a', ha', he⟩ := (h.held _).mp hmem
      rw [← Nat.add_right_cancel he] at ha'
      obtain ⟨c, hc, hcf⟩ := mem_liveAddrs.mp ha'
      rw [layout_unique hx hc, hcf] at hf
      cases hf
  · intro p hp
    obtain ⟨a, ha, rfl⟩ := (h.held p).mp hp
    obtain ⟨b, hb, hbf⟩ := mem_liveAddrs.mp ha
    exact ⟨(a, b), hb, hbf, rfl⟩

/-- In every reachable state the heap is tiled by its blocks, calls return
(or, for `kmalloc`, end in `err()`), and once anything was allocated,
freeing the blocks in use in any order leaves one free block that spans the
heap. -/
theorem heap_tiled_and_reclaimed {s : HeapState} (hs : heapSystem.Reach s) :
    (∃ bs, TiledBy s bs) ∧
    (∀ n, kmalloc s.heap n ≠ .hang) ∧
    ∀ order, order.Perm s.live → ∃ h', freeAll s.heap order = .ret h' ∧
      h'.heapBegin = s.heap.heapBegin ∧
      (s.allocated = true →
        h'.heapUsed = 0 ∧ h'.freeList = heapStart ∧ h'.next heapStart = 0 ∧
        h'.magic heapStart = blockFree ∧
        heapStart + headerSize + h'.size heapStart = h'.heapBegin) := by
  obtain ⟨bs, h⟩ := heap_owned hs
  refine ⟨⟨bs, h.tiled⟩, ?_, ?_⟩
  · intro n
    by_cases hn : n = 0
    · simp [kmalloc, hn]
    · rcases kmalloc_refines h.toRep hn with ⟨h', o, bs', hret, -⟩ | ⟨msg, hret⟩ <;>
        simp [hret]
  · intro order hperm
    have hown : Owned ⟨s.heap, order, s.allocated⟩ bs :=
      { h with
        nodup := hperm.symm.nodup h.nodup
        held := fun p => (hperm.mem_iff).trans (h.held p) }
    obtain ⟨h', bs', hret, hown', hbeg⟩ := hown.freeAll
    refine ⟨h', hret, hbeg, fun hal => ?_⟩
    obtain ⟨k, rfl⟩ := hown'.single rfl hal
    have hhead := hown'.heads (heapStart, ⟨k, true⟩) (by simp [layout])
    have hlist := hown'.chain
    have hbeg' := hown'.begin_eq
    simp only [freeAddrs_cons, freeAddrs_nil, if_true, List.append_nil, Linked] at hlist
    simp only [span_cons, span_nil] at hbeg'
    refine ⟨by simpa [usedBytes] using hown'.used_eq, hlist.1, ?_, hhead.2, ?_⟩
    · rw [hlist.1] at hlist
      exact hlist.2
    · rw [hhead.1, hbeg']
      simp only
      omega

/-- The heap over cleared memory. -/
def bootHeap : Heap := ⟨fun _ => 0, heapStart, 0, 0⟩

theorem findFit_empty (h : Heap) (r : Nat) (link : Link) :
    ∀ fuel : Nat, 0 < fuel → findFit h r fuel link 0 = some (link, 0)
  | 0, h0 => absurd h0 (Nat.lt_irrefl 0)
  | _ + 1, _ => by simp only [findFit, if_true]

theorem kmalloc_bootHeap :
    kmalloc bootHeap 5 = .ret (bumpBlock bootHeap 8 20, heapStart + headerSize) := by
  have hfit : findFit bootHeap 8 (walkFuel bootHeap) .head bootHeap.freeList = some (.head, 0) :=
    findFit_empty _ _ _ _ (by decide)
  have ha : alignSize 5 = 8 := by decide
  have ht : u32 (headerSize + 8) = 20 := by decide
  have hp : u32 (bootHeap.heapBegin + headerSize) = heapStart + headerSize := by decide
  have hroom : ¬(bootHeap.heapBegin > sub32 heapEnd 20) := by decide
  have hsize : ¬(5 > heapSize - headerSize) := by decide
  have h5 : ¬(5 = 0) := by decide
  simp only [kmalloc, ha, hfit, ht, hp, if_neg hroom, if_neg hsize, if_neg h5, ne_eq,
    not_true_eq_false, if_false]

theorem heap_after_first_kmalloc :
    heapSystem.Reach ⟨bumpBlock bootHeap 8 20, [heapStart + headerSize], true⟩ ∧
      ∃ bs, TiledBy ⟨bumpBlock bootHeap 8 20, [heapStart + headerSize], true⟩ bs := by
  have hboot : HeapBoot ⟨bootHeap, [], false⟩ := ⟨rfl, rfl, rfl, rfl, rfl⟩
  have hstep : HeapStep ⟨bootHeap, [], false⟩ (.kmalloc 5)
      ⟨bumpBlock bootHeap 8 20, [heapStart + headerSize], true⟩ :=
    .alloc kmalloc_bootHeap (by decide)
  have hreach : heapSystem.Reach ⟨bumpBlock bootHeap 8 20, [heapStart + headerSize], true⟩ :=
    .step (.init hboot) trivial hstep
  exact ⟨hreach, (heap_tiled_and_reclaimed hreach).1⟩

end LiteBSD
