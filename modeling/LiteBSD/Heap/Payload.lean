/-
# `LiteBSD.Heap.Payload` — allocations are disjoint and undisturbed

The headers of the blocks are in the same memory as their payloads.  Where
`kmalloc` and `kfree` store is therefore a statement of its own:

| call | stores |
| `kmalloc`, block found | its header, the `next` of one free block, and a new header inside the block |
| `kmalloc`, none found | a new header at the bump pointer |
| `kfree` | its header and those of the free blocks next to it on the list |

All of them are outside of every payload in use (`kmalloc_frame`,
`kfree_frame`), and with the tiling this is all there is to
`allocations_undisturbed`.
-/
import LiteBSD.Heap.Invariant

namespace LiteBSD

open Lib

/-! ## Where the stores go -/

/-- The word is in no header of the tiling. -/
def OffHeaders (bs : List Seg) (y : Nat) : Prop :=
  ∀ x ∈ layout headerSize heapStart bs, y < x.1 ∨ x.1 + headerSize ≤ y

/-- The word is in no free block of the tiling. -/
def OffFree (bs : List Seg) (y : Nat) : Prop :=
  ∀ x ∈ layout headerSize heapStart bs, x.2.free = true → y < x.1 ∨ x.1 + (headerSize + x.2.size) ≤ y

section Frames

variable {h h' : Heap} {pre post bs : List Seg} {l : List Nat} {s r B y v n p : Nat}

/-- Storing through the link a walk stopped at stores into a header. -/
theorem linkAfter_set_mem (hy : ∀ a ∈ l, y ≠ a + 8) : ((linkAfter .head l).set h v).mem y = h.mem y := by
  rcases List.eq_nil_or_concat' l with rfl | ⟨l', b, rfl⟩
  · rfl
  · rw [linkAfter_concat]
    exact h.store_mem_of_ne _ _ (hy b (by simp))

theorem OffHeaders.free {a : Nat} (hy : OffHeaders bs y) (ha : a ∈ freeAddrs headerSize heapStart bs) :
    y < a ∨ a + headerSize ≤ y := by
  obtain ⟨b, hb, _⟩ := mem_freeAddrs.mp ha
  exact hy _ hb

theorem takeBlock_mem (hB : y < B ∨ B + headerSize ≤ y) (hlink : ∀ a ∈ l, y ≠ a + 8)
    (htail : h.size B ≥ u32 (r + headerSize + 16) →
      y < u32 (u32 (B + headerSize) + r) ∨ u32 (u32 (B + headerSize) + r) + headerSize ≤ y) :
    (takeBlock h r (linkAfter .head l) B).mem y = h.mem y := by
  simp only [headerSize] at hB
  unfold takeBlock
  refine ((handOut_mem _ B).2.2 y (by omega) (by omega)).trans ?_
  split
  · rename_i hbig
    have htail := htail hbig
    generalize u32 (u32 (B + headerSize) + r) = T at htail ⊢
    simp only [headerSize] at htail
    rw [linkAfter_set_mem hlink]
    simp only [Heap.setSize, Heap.setMagic, Heap.setNext]
    rw [Heap.store_mem_of_ne _ _ _ (by omega), Heap.store_mem_of_ne _ _ _ (by omega),
      Heap.store_mem_of_ne _ _ _ (by omega), Heap.store_mem_of_ne _ _ _ (by omega)]
  · exact linkAfter_set_mem hlink

theorem bumpBlock_mem {total : Nat} (hy : y < h.heapBegin) : (bumpBlock h r total).mem y = h.mem y := by
  simp only [bumpBlock, Heap.setSize, Heap.setMagic, Heap.setNext]
  rw [Heap.store_mem_of_ne _ _ _ (by omega), Heap.store_mem_of_ne _ _ _ (by omega),
    Heap.store_mem_of_ne _ _ _ (by omega)]

/-- `kmalloc` stores into headers and free blocks only. -/
theorem kmalloc_frame (hrep : Rep h bs) (hret : kmalloc h n = .ret (h', p)) (hy : y < h.heapBegin)
    (hheads : OffHeaders bs y) (hfree : OffFree bs y) : h'.mem y = h.mem y := by
  by_cases hn : n = 0
  · rw [kmalloc, if_pos hn] at hret
    cases hret
    rfl
  by_cases hbig : n > heapSize - headerSize
  · rw [kmalloc, if_neg hn, if_pos hbig] at hret
    cases hret
  obtain ⟨-, -, hrle, -⟩ := alignSize_spec (Nat.not_lt.mp hbig)
  have hlink : ∀ {l₁ l₂ : List Nat}, freeAddrs headerSize heapStart bs = l₁ ++ l₂ → ∀ a ∈ l₁, y ≠ a + 8 := by
    intro l₁ l₂ hl a ha
    have hoff := hheads.free (hl ▸ List.mem_append_left _ ha)
    simp only [headerSize] at hoff
    omega
  rcases findFit_spec h (alignSize n) (walkFuel h) (freeAddrs headerSize heapStart bs) .head h.freeList hrep.chain
    freeAddrs_ne_zero (freeAddrs_lt_walkFuel hrep.begin_eq.ge) with ⟨hw, -⟩ | ⟨l₁, b, l₂, hl, hb, hw⟩
  · rw [kmalloc_of_findFit hn hbig hw, if_neg (by simp)] at hret
    split at hret
    · cases hret
    · cases hret
      exact bumpBlock_mem hy
  · have hmem : b ∈ freeAddrs headerSize heapStart bs := by simp [hl]
    rw [kmalloc_of_findFit hn hbig hw, if_pos (freeAddrs_ne_zero b hmem)] at hret
    cases hret
    obtain ⟨s, hs, hsfree⟩ := mem_freeAddrs.mp hmem
    have hsize : h.size b = s.size := (hrep.heads _ hs).1
    have hoff := hfree _ hs hsfree
    have hend := (layout_bounds hs).2
    have hfits := hrep.fits
    rw [hrep.begin_eq] at hfits
    refine takeBlock_mem (hheads.free hmem) (hlink hl) fun hbig => ?_
    -- the new header is inside the block that is split
    rw [hsize] at hbig
    simp only [u32, headerSize, heapEnd, heapStart, heapSize] at *
    omega

/-- Putting a block back stores sizes and links: its own, and those of free
blocks below it. -/
theorem coalesce_mem {g : Heap} (hc : Core g (pre ++ ⟨s, true⟩ :: post)) (hB : heapStart + span headerSize pre = B)
    (hbeg : heapStart + span headerSize (pre ++ ⟨s, true⟩ :: post) ≤ g.heapBegin) (hend : g.heapBegin ≤ heapEnd)
    (hret : coalesce g (linkAfter .head (freeAddrs headerSize heapStart pre)) B = .ret h')
    (hyB : y ≠ B ∧ y ≠ B + 8) (hyfree : ∀ a ∈ freeAddrs headerSize heapStart pre, y ≠ a ∧ y ≠ a + 8) :
    h'.mem y = g.mem y := by
  have hnext : (mergeNext g B).mem y = g.mem y := by
    unfold mergeNext absorb
    split
    · simp only [Heap.setSize, Heap.setNext]
      rw [Heap.store_mem_of_ne _ _ _ hyB.2, Heap.store_mem_of_ne _ _ _ hyB.1]
    · rfl
  unfold coalesce at hret
  dsimp only at hret
  rcases List.eq_nil_or_concat' (freeAddrs headerSize heapStart pre) with hnil | ⟨l₀, P, hl⟩
  · rw [if_pos (linkAfter_eq_head.mpr hnil)] at hret
    cases hret
    exact hnext
  · have hlink : linkAfter .head (freeAddrs headerSize heapStart pre) ≠ .head := by
      rw [hl, linkAfter_concat]
      simp
    rw [if_neg hlink] at hret
    obtain ⟨s₂, post₂, hc₂, hspan⟩ : ∃ s₂ post₂, Core (mergeNext g B) (pre ++ ⟨s₂, true⟩ :: post₂) ∧
        span headerSize (pre ++ ⟨s₂, true⟩ :: post₂) = span headerSize (pre ++ ⟨s, true⟩ :: post) := by
      rcases mergeNext_core hc hB (hbeg.trans hend) with ⟨-, hm⟩ | ⟨u, post', rfl, hcm⟩
      · exact ⟨s, post, by rwa [hm], rfl⟩
      · exact ⟨s + (headerSize + u), post', hcm, by simp; omega⟩
    obtain ⟨hnb, -⟩ := mergeNext_statics g B
    rw [findPrevious_of_core hc₂ hB hl (by rwa [hspan, hnb])] at hret
    cases hret
    have hyP := hyfree P (by simp [hl])
    refine Eq.trans ?_ hnext
    unfold mergePrevious absorb
    split
    · simp only [Heap.setSize, Heap.setNext]
      rw [Heap.store_mem_of_ne _ _ _ hyP.2, Heap.store_mem_of_ne _ _ _ hyP.1]
    · rfl

/-- `kfree` of a block in use marks it, and stores sizes and links. -/
theorem kfree_mem (hrep : Rep h (pre ++ ⟨s, false⟩ :: post)) (hB : heapStart + span headerSize pre = B)
    (hret : kfree h (B + headerSize) = .ret h') (hyB : y ≠ B ∧ y ≠ B + 8)
    (hyfree : ∀ a ∈ freeAddrs headerSize heapStart pre, y ≠ a ∧ y ≠ a + 8) :
    h'.mem y = if y = B + 4 then blockFree else h.mem y := by
  obtain ⟨m, hl, hlpost, heq⟩ := kfree_eq hrep hB
  generalize sub32 h.heapUsed (u32 (headerSize + s)) = u at heq
  have hcore := insert_core (u := u) hrep.toCore hB hl hlpost
  have hstat := linkSet_statics ((Heap.setMagic { h with heapUsed := u } B blockFree).setNext B m)
    (linkAfter .head (freeAddrs headerSize heapStart pre)) B
  rw [heq] at hret
  have hbeg : heapStart + span headerSize (pre ++ ⟨s, true⟩ :: post) ≤ h.heapBegin :=
    hrep.begin_eq.ge.trans' (by simp)
  refine (coalesce_mem hcore hB (by rw [hstat.1]; exact hbeg) (by rw [hstat.1]; exact hrep.fits) hret hyB hyfree).trans ?_
  rw [linkAfter_set_mem fun a ha => (hyfree a ha).2]
  simp only [Heap.setMagic, Heap.setNext]
  rw [Heap.store_mem_of_ne _ _ _ hyB.2]
  by_cases hmark : y = B + 4
  · rw [if_pos hmark, hmark, Heap.store_mem_self]
  · rw [if_neg hmark, Heap.store_mem_of_ne _ _ _ hmark]

/-- `kfree` of a block in use stores into headers only. -/
theorem kfree_frame (hrep : Rep h (pre ++ ⟨s, false⟩ :: post)) (hB : heapStart + span headerSize pre = B)
    (hret : kfree h (B + headerSize) = .ret h') (hy : OffHeaders (pre ++ ⟨s, false⟩ :: post) y) :
    h'.mem y = h.mem y := by
  have hoffB : y < B ∨ B + headerSize ≤ y := hy (B, ⟨s, false⟩) (by simp [layout, hB])
  simp only [headerSize] at hoffB
  have hfree : ∀ a ∈ freeAddrs headerSize heapStart pre, y ≠ a ∧ y ≠ a + 8 := by
    intro a ha
    have hoff := hy.free (a := a) (by rw [freeAddrs_append]; exact List.mem_append_left _ ha)
    simp only [headerSize] at hoff
    omega
  rw [kfree_mem hrep hB hret (by omega) hfree, if_neg (by omega)]

end Frames

/-! ## Payloads -/

/-- The word is in the payload at `q`. -/
def InPayload (h : Heap) (q a : Nat) : Prop := q ≤ a ∧ a < q + h.size (q - headerSize)

/-- The payload at `q` is still handed out, and still has its words. -/
structure Intact (q : Nat) (s s' : HeapState) : Prop where
  live : q ∈ s'.live
  size : s'.heap.size (q - headerSize) = s.heap.size (q - headerSize)
  words : ∀ a, InPayload s.heap q a → s'.heap.mem a = s.heap.mem a

/-- The step is not one of the holder of `q`. -/
def Foreign (q : Nat) (s : HeapState) : HeapOp → Prop
  | .kmalloc _ => True
  | .kfree p => p ≠ q
  | .write a _ => ¬InPayload s.heap q a

/-- The heap from the state `s` on. -/
def heapFrom (s : HeapState) : System HeapState HeapOp where
  init := (· = s)
  step := HeapStep

/-- What `kmalloc` of `n` bytes has returned with `p`. -/
structure Granted (s : HeapState) (n : Nat) (h' : Heap) (p : Nat) : Prop where
  noWrap : n + 3 < 4294967296 ∧ alignSize n + headerSize + 16 < 4294967296 ∧ headerSize + alignSize n ≤ heapEnd
  aligned : 4 ∣ p
  inHeap : heapStart ≤ p ∧ p + n ≤ heapEnd
  room : n ≤ h'.size (p - headerSize)
  apart : ∀ q ∈ s.live, p + n ≤ q ∨ q + s.heap.size (q - headerSize) ≤ p
  offHeaders : ∃ bs, TiledBy ⟨h', p :: s.live, true⟩ bs ∧
    ∀ x ∈ layout headerSize heapStart bs, p + n ≤ x.1 ∨ x.1 + headerSize ≤ p

section Payloads

variable {s s' s'' : HeapState} {bs : List Seg} {q n p y : Nat} {h' : Heap} {op : HeapOp}

theorem Intact.refl (hq : q ∈ s.live) : Intact q s s := ⟨hq, rfl, fun _ _ => rfl⟩

theorem Intact.trans (h : Intact q s s') (h' : Intact q s' s'') : Intact q s s'' := by
  refine ⟨h'.live, h'.size.trans h.size, fun a ha => (h'.words a ?_).trans (h.words a ha)⟩
  exact ⟨ha.1, h.size ▸ ha.2⟩

/-- The block of a pointer that is held. -/
theorem Owned.block (h : Owned s bs) (hq : q ∈ s.live) : ∃ b : Seg, b.free = false ∧
    (q - headerSize, b) ∈ layout headerSize heapStart bs ∧ s.heap.size (q - headerSize) = b.size ∧
      q - headerSize + headerSize = q := by
  obtain ⟨a, ha, rfl⟩ := (h.held q).mp hq
  obtain ⟨b, hb, hused⟩ := mem_liveAddrs.mp ha
  rw [Nat.add_sub_cancel]
  exact ⟨b, hused, hb, (h.heads _ hb).1, rfl⟩

/-- A payload in use has no part of a header or of a free block. -/
theorem Owned.off (h : Owned s bs) (hq : q ∈ s.live) (hy : InPayload s.heap q y) :
    y < s.heap.heapBegin ∧ OffHeaders bs y ∧ OffFree bs y := by
  obtain ⟨b, hused, hb, hsize, hback⟩ := h.block hq
  obtain ⟨hlo, hhi⟩ := hy
  rw [hsize] at hhi
  have hbounds := (layout_bounds hb).2
  dsimp only at hbounds
  refine ⟨by rw [h.begin_eq]; omega, fun x hx => ?_, fun x hx hfree => ?_⟩
  · rcases layout_disjoint hb hx with rfl | hle | hle
    · exact .inr (by dsimp only; omega)
    · exact .inl (by dsimp only at hle; omega)
    · exact .inr (by dsimp only at hle; omega)
  · rcases layout_disjoint hb hx with rfl | hle | hle
    · rw [hused] at hfree
      cases hfree
    · exact .inl (by dsimp only at hle; omega)
    · exact .inr (by dsimp only at hle; omega)

/-- A block that stays where it is keeps its size. -/
theorem size_of_keep {bs' : List Seg} {b : Seg} (hc : Core h' bs')
    (hb : (q - headerSize, b) ∈ layout headerSize heapStart bs')
    (hsize : s.heap.size (q - headerSize) = b.size) : h'.size (q - headerSize) = s.heap.size (q - headerSize) :=
  (hc.heads _ hb).1.trans hsize.symm

/-- `kmalloc` does not disturb what is held. -/
theorem Owned.kmalloc_intact (h : Owned s bs) (hq : q ∈ s.live) {al : Bool}
    (hret : LiteBSD.kmalloc s.heap n = .ret (h', p)) : Intact q s ⟨h', p :: s.live, al⟩ := by
  obtain ⟨b, hused, hb, hsize, _⟩ := h.block hq
  refine ⟨List.mem_cons_of_mem _ hq, ?_, fun a ha => ?_⟩
  · by_cases hn : n = 0
    · rw [LiteBSD.kmalloc, if_pos hn] at hret
      cases hret
      rfl
    · rcases kmalloc_refines h.toRep hn with ⟨g, o, bs', hg, hstep, hrep⟩ | ⟨msg, hg⟩
      · rw [hret] at hg
        cases hg
        exact size_of_keep hrep.toCore (hstep.keep hused hb) hsize
      · rw [hret] at hg
        cases hg
  · obtain ⟨hbeg, hheads, hfree⟩ := h.off hq ha
    exact kmalloc_frame h.toRep hret hbeg hheads hfree

/-- `kfree` of one block does not disturb another one. -/
theorem Owned.kfree_intact (h : Owned s bs) (hq : q ∈ s.live) (hp : p ∈ s.live) (hne : p ≠ q) {al : Bool}
    (hret : LiteBSD.kfree s.heap p = .ret h') : Intact q s ⟨h', s.live.erase p, al⟩ := by
  obtain ⟨b, hused, hb, hsize, hback⟩ := h.block hq
  obtain ⟨pre, k, post, rfl, rfl⟩ := h.place hp
  refine ⟨(List.mem_erase_of_ne hne.symm).mpr hq, ?_, fun a ha => ?_⟩
  · obtain ⟨g, bs', hg, hstep, hrep⟩ := kfree_refines h.toRep
    rw [hret] at hg
    cases hg
    refine size_of_keep hrep.toCore (hstep.keep hused (fun he => hne ?_) hb) hsize
    rw [← hback]
    exact congrArg (· + headerSize) he.symm
  · exact kfree_frame h.toRep rfl hret (h.off hq ha).2.1

/-- A step of somebody else. -/
theorem Owned.foreign_step (h : Owned s bs) (hq : q ∈ s.live) (hs : HeapStep s op s') (hf : Foreign q s op) :
    Intact q s s' := by
  cases hs with
  | null hret =>
      rcases h.kmalloc hret with ⟨_, rfl⟩ | ⟨hne, _⟩
      · exact .refl hq
      · exact absurd rfl hne
  | alloc hret _ => exact h.kmalloc_intact hq hret
  | @free p h' hp hret =>
      rcases hp with rfl | hp
      · rw [LiteBSD.kfree, if_pos rfl] at hret
        cases hret
        rw [List.erase_of_not_mem h.zero_notMem]
        exact ⟨hq, rfl, fun _ _ => rfl⟩
      · exact h.kfree_intact hq hp hf hret
  | @write p a v hp _ hlo hhi =>
      obtain ⟨b, _, hb, hsize, _⟩ := h.block hq
      have hown := h.write (v := v) hp hlo hhi
      refine ⟨hq, size_of_keep hown.toCore hb hsize, fun y hy => ?_⟩
      refine Heap.store_mem_of_ne _ _ _ ?_
      rintro rfl
      exact hf hy

/-- A run of steps of others. -/
theorem Owned.foreign_run (h : Owned s bs) (hq : q ∈ s.live) (hr : (heapFrom s).ReachVia (Foreign q) s') :
    Intact q s s' := by
  have hinv : (∃ bs', Owned s' bs') ∧ Intact q s s' := by
    refine hr.invariant (I := fun x => (∃ bs', Owned x bs') ∧ Intact q s x) ?_ ?_
    · rintro _ rfl
      exact ⟨⟨bs, h⟩, .refl hq⟩
    · rintro x op x' ⟨hown, hun⟩ hf hs
      obtain ⟨bs', hown'⟩ := hown
      exact ⟨Owned.step ⟨bs', hown'⟩ hs, hun.trans (hown'.foreign_step hun.live hs hf)⟩
  exact hinv.2

/-- What a call to `kmalloc` that returns hands out. -/
theorem Owned.granted (h : Owned s bs) (hn : 0 < n) (hret : LiteBSD.kmalloc s.heap n = .ret (h', p)) :
    Granted s n h' p := by
  have hn0 : n ≠ 0 := Nat.ne_of_gt hn
  have hbig : ¬n > heapSize - headerSize := by
    intro hbig
    rw [LiteBSD.kmalloc, if_neg hn0, if_pos hbig] at hret
    cases hret
  obtain ⟨hle, h4, hrle, _⟩ := alignSize_spec (Nat.not_lt.mp hbig)
  have hwords : n + 3 < 4294967296 ∧ alignSize n + headerSize + 16 < 4294967296 ∧ headerSize + alignSize n ≤ heapEnd := by
    simp only [heapSize, headerSize, heapEnd, heapStart] at *
    omega
  obtain ⟨_, bs', hown⟩ := (h.kmalloc hret).resolve_left fun h0 => by
    rcases kmalloc_refines h.toRep hn0 with ⟨g, o, _, hg, -⟩ | ⟨msg, hg⟩
    · rw [hret, h0.1] at hg
      cases hg
    · rw [hret] at hg
      cases hg
  obtain ⟨b, hused, hb, hsize, hback⟩ := hown.block (q := p) List.mem_cons_self
  dsimp only at hsize
  have hroom : n ≤ b.size := by
    rcases kmalloc_refines h.toRep hn0 with ⟨g, o, bs'', hg, hstep, hrep⟩ | ⟨msg, hg⟩
    · rw [hret] at hg
      cases hg
      obtain ⟨k, hk, hblock⟩ := hstep.block (a := heapStart)
      have hkeep := (hrep.heads _ hblock).1
      rw [Nat.add_sub_cancel] at hsize
      dsimp only at hkeep
      omega
    · rw [hret] at hg
      cases hg
  have hbounds := layout_bounds hb
  dsimp only at hbounds
  have hfits := hown.fits
  rw [hown.begin_eq] at hfits
  -- a block of the tiling is this one, or ends before it, or begins behind it
  have hdis : ∀ x ∈ layout headerSize heapStart bs', x = (p - headerSize, b) ∨ p + n ≤ x.1 ∨
      x.1 + (headerSize + x.2.size) ≤ p - headerSize := by
    intro x hx
    rcases layout_disjoint hx hb with he | hle | hle
    · exact .inl he
    · exact .inr (.inr hle)
    · exact .inr (.inl (by dsimp only at hle; omega))
  refine ⟨hwords, ?_, by omega, by rw [hsize]; exact hroom, fun q hq => ?_, bs', hown.tiled, fun x hx => ?_⟩
  · obtain ⟨pre, k, post, rfl, hp⟩ := hown.place (p := p) List.mem_cons_self
    have hpre : 4 ∣ span headerSize pre :=
      dvd_span (by decide) fun c hc => hown.aligned c (List.mem_append_left _ hc)
    rw [hp]
    simp only [heapStart, headerSize] at hpre ⊢
    omega
  · obtain ⟨c, _, hc, hcsize, hcback⟩ := hown.block (q := q) (List.mem_cons_of_mem _ hq)
    have hkept : Intact q s ⟨h', p :: s.live, true⟩ := h.kmalloc_intact hq hret
    have hsame := hkept.size
    rw [← hsame]
    dsimp only at hcsize
    rw [hcsize]
    rcases hdis _ hc with he | hle | hle
    · have hpq : q - headerSize = p - headerSize := congrArg Prod.fst he
      have hnodup := (List.nodup_cons.mp hown.nodup).1
      exact absurd (show p ∈ s.live by rw [← hback, ← hpq, hcback]; exact hq) hnodup
    · exact .inl (by dsimp only at hle; omega)
    · exact .inr (by dsimp only at hle; omega)
  · rcases hdis x hx with rfl | hle | hle
    · exact .inr (by dsimp only; omega)
    · exact .inl hle
    · exact .inr (by omega)

/-- Allocations are disjoint and undisturbed: what `kmalloc` returns is
aligned, in the heap and apart from everything else in it; neither this call
nor anything that others do later changes a word of a payload that is held. -/
theorem allocations_undisturbed (hs : heapSystem.Reach s) (hn : 0 < n)
    (hret : kmalloc s.heap n = .ret (h', p)) :
    Granted s n h' p ∧ (∀ q ∈ s.live, Intact q s ⟨h', p :: s.live, true⟩) ∧
    ∀ q ∈ p :: s.live, ∀ s', (heapFrom ⟨h', p :: s.live, true⟩).ReachVia (Foreign q) s' →
      Intact q ⟨h', p :: s.live, true⟩ s' := by
  obtain ⟨bs, h⟩ := heap_owned hs
  have hgranted := h.granted hn hret
  have hp : p ≠ 0 := by
    rintro rfl
    exact absurd hgranted.inHeap.1 (by decide)
  obtain ⟨bs', hown⟩ := Owned.step ⟨bs, h⟩ (.alloc hret hp)
  exact ⟨hgranted, fun q hq => h.kmalloc_intact hq hret, fun q hq s' hr => hown.foreign_run hq hr⟩

/-- The first allocation. -/
theorem first_allocation_granted :
    Granted ⟨bootHeap, [], false⟩ 5 (bumpBlock bootHeap 8 20) (heapStart + headerSize) := by
  have hboot : heapSystem.Reach ⟨bootHeap, [], false⟩ := .init ⟨rfl, rfl, rfl, rfl, rfl⟩
  exact (allocations_undisturbed hboot (by decide) kmalloc_bootHeap).1

end Payloads

end LiteBSD
