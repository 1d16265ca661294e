/-
# `LiteBSD.Heap.Represent` — the heap in memory represents a tiling

`Rep h bs` says that the words of `h` spell out the tiling `bs`: every
block's `size` and `magic` are in its header, and following `next` from
`free_list` visits exactly the free blocks, in address order, down to
`NULL`.  This module says what each walk over such a heap finds and what
each group of stores does to the tiling it represents.

Two blocks of a tiling are a header apart, which is what keeps the stores
into one header away from every other: `layout_apart` and the bounds of a
layout are all the separation the proofs use.
-/
import LiteBSD.Lib.Tiling
import LiteBSD.Heap.Model
import Mathlib.Data.List.Nodup

namespace LiteBSD

open Lib

/-! ## Stores -/

section Store

variable (h : Heap) (a v : Nat)

@[simp] theorem Heap.store_heapBegin : (h.store a v).heapBegin = h.heapBegin := rfl
@[simp] theorem Heap.store_freeList : (h.store a v).freeList = h.freeList := rfl
@[simp] theorem Heap.store_heapUsed : (h.store a v).heapUsed = h.heapUsed := rfl

@[simp] theorem Heap.store_mem_self : (h.store a v).mem a = v := by
  simp [Heap.store]

theorem Heap.store_mem_of_ne {x : Nat} (hx : x ≠ a) : (h.store a v).mem x = h.mem x := by
  simp [Heap.store, hx]

end Store

/-! ## The representation -/

def magicOf (b : Seg) : Nat := if b.free then blockFree else blockAllocated

/-- The headers and the free list spell out the tiling. -/
structure Core (h : Heap) (bs : List Seg) : Prop where
  heads : ∀ x ∈ layout headerSize heapStart bs,
    h.size x.1 = x.2.size ∧ h.magic x.1 = magicOf x.2
  chain : Linked h.next h.freeList (freeAddrs headerSize heapStart bs) 0

/-- The representation invariant of the heap. -/
structure Rep (h : Heap) (bs : List Seg) : Prop extends Core h bs where
  begin_eq : h.heapBegin = heapStart + span headerSize bs
  fits : h.heapBegin ≤ heapEnd
  used_eq : h.heapUsed = usedBytes headerSize bs
  sep : Separated bs
  aligned : ∀ b ∈ bs, 4 ∣ b.size

/-- Only words outside the range of a tiling were changed. -/
theorem Core.congr {h h' : Heap} {bs : List Seg} (hc : Core h bs)
    (hf : h'.freeList = h.freeList)
    (hm : ∀ x ∈ layout headerSize heapStart bs, ∀ i < headerSize,
      h'.mem (x.1 + i) = h.mem (x.1 + i)) : Core h' bs := by
  constructor
  · intro x hx
    have h0 := hm x hx 0 (by decide)
    have h4 := hm x hx 4 (by decide)
    obtain ⟨hs, hg⟩ := hc.heads x hx
    exact ⟨h0.trans hs, h4.trans hg⟩
  · rw [hf]
    refine hc.chain.congr fun a ha => ?_
    obtain ⟨b, hb, -⟩ := mem_freeAddrs.mp ha
    exact hm _ hb 8 (by decide)

/-- Two blocks of one tiling are the same or a header apart. -/
theorem layout_apart {a : Nat} {bs : List Seg} {x y : Nat × Seg}
    (hx : x ∈ layout headerSize a bs) (hy : y ∈ layout headerSize a bs) :
    x.1 = y.1 ∨ x.1 + 12 ≤ y.1 ∨ y.1 + 12 ≤ x.1 := by
  have := layout_disjoint hx hy
  simp only [headerSize] at this
  rcases this with rfl | h | h
  · exact Or.inl rfl
  · omega
  · omega

/-- No block of a heap that fits lies at `NULL`. -/
theorem freeAddrs_ne_zero {bs : List Seg} :
    ∀ a ∈ freeAddrs headerSize heapStart bs, a ≠ 0 := by
  intro a ha
  have := (freeAddrs_bounds ha).1
  simp only [heapStart] at this
  omega

/-- The free list is shorter than the fuel of a walk. -/
theorem freeAddrs_lt_walkFuel {h : Heap} {bs : List Seg}
    (hfit : heapStart + span headerSize bs ≤ h.heapBegin) :
    (freeAddrs headerSize heapStart bs).length < walkFuel h := by
  have := @freeAddrs_length_le headerSize heapStart bs
  simp only [headerSize, walkFuel, heapStart] at *
  omega

theorem freeAddrs_nodup (a : Nat) (bs : List Seg) : (freeAddrs headerSize a bs).Nodup :=
  (freeAddrs_sorted (by decide) a bs).imp Nat.ne_of_lt

/-- A place in the free list is a place in the tiling. -/
theorem freeAddrs_place {bs : List Seg} {l₁ l₂ : List Nat} {b : Nat}
    (hl : freeAddrs headerSize heapStart bs = l₁ ++ b :: l₂) :
    ∃ pre s post, bs = pre ++ ⟨s, true⟩ :: post ∧ heapStart + span headerSize pre = b ∧
      l₁ = freeAddrs headerSize heapStart pre := by
  obtain ⟨pre, s, post, rfl, rfl⟩ := @freeAddrs_split headerSize heapStart b bs
    (by simp [hl])
  refine ⟨pre, s, post, rfl, rfl, ?_⟩
  have hnd := freeAddrs_nodup heapStart (pre ++ ⟨s, true⟩ :: post)
  simp only [freeAddrs_append, freeAddrs_cons, if_true, List.cons_append,
    List.nil_append] at hl hnd
  have hnd' := hnd
  rw [hl] at hnd'
  have h₁ := (List.nodup_middle.mp hnd').notMem
  have h₂ := (List.nodup_middle.mp hnd).notMem
  simp only [List.mem_append, not_or] at h₁ h₂
  exact ((List.append_cons_inj_of_notMem h₁.1 h₁.2).mp hl.symm).1

/-! ## The link a walk stops at -/

/-- The link reached from `link` after walking past the blocks `l`. -/
def linkAfter : Link → List Nat → Link
  | link, [] => link
  | _, a :: l => linkAfter (.next a) l

theorem linkAfter_concat (link : Link) (l : List Nat) (b : Nat) :
    linkAfter link (l ++ [b]) = .next b := by
  induction l generalizing link with
  | nil => rfl
  | cons a l ih => exact ih (.next a)

theorem linkAfter_eq_head {l : List Nat} : linkAfter .head l = .head ↔ l = [] := by
  rcases List.eq_nil_or_concat' l with rfl | ⟨l', b, rfl⟩
  · simp [linkAfter]
  · simp [linkAfter_concat]

/-- `*link` is where the blocks walked past arrive. -/
theorem linkAfter_get {h : Heap} {l : List Nat} {m : Nat}
    (hl : Linked h.next h.freeList l m) : (linkAfter .head l).get h = m := by
  rcases List.eq_nil_or_concat' l with rfl | ⟨l', b, rfl⟩
  · exact hl
  · obtain ⟨c, -, hc, hm⟩ := linked_append.mp hl
    rw [linkAfter_concat]
    exact hm

/-- What `*link = v` does after other cells were written: the blocks
walked past now arrive at `v`, and no word but their `next` changes. -/
theorem linkAfter_set {h : Heap} {nxt : Nat → Nat} {l : List Nat} {p m v : Nat}
    (hl : Linked nxt p l m) (hp : h.freeList = p) (hn : ∀ a ∈ l, h.next a = nxt a)
    (hd : l.Nodup) :
    Linked ((linkAfter .head l).set h v).next ((linkAfter .head l).set h v).freeList l v ∧
    (∀ x, (∀ b ∈ l, x ≠ b + 8) → ((linkAfter .head l).set h v).mem x = h.mem x) ∧
    ((linkAfter .head l).set h v).heapBegin = h.heapBegin ∧
    ((linkAfter .head l).set h v).heapUsed = h.heapUsed := by
  rcases List.eq_nil_or_concat' l with rfl | ⟨l', b, rfl⟩
  · exact ⟨rfl, fun _ _ => rfl, rfl, rfl⟩
  · rw [linkAfter_concat]
    refine ⟨?_, fun x hx => h.store_mem_of_ne _ _ (hx b (by simp)), rfl, rfl⟩
    show Linked _ h.freeList (l' ++ [b]) v
    rw [hp]
    refine hl.setLast (fun a ha => ?_) (h.store_mem_self _ _)
    have hab : a ≠ b := by
      rintro rfl
      exact (List.nodup_append.mp hd).2.2 a ha a (by simp) rfl
    have hne : a + 8 ≠ b + 8 := by omega
    exact (h.store_mem_of_ne _ _ hne).trans (hn a (by simp [ha]))

/-! ## The walks -/

theorem findFit_spec (h : Heap) (r : Nat) :
    ∀ (fuel : Nat) (l : List Nat) (link : Link) (p : Nat),
      Linked h.next p l 0 → (∀ a ∈ l, a ≠ 0) → l.length < fuel →
      (findFit h r fuel link p = some (linkAfter link l, 0) ∧ ∀ a ∈ l, h.size a < r) ∨
      ∃ l₁ b l₂, l = l₁ ++ b :: l₂ ∧ r ≤ h.size b ∧
        findFit h r fuel link p = some (linkAfter link l₁, b)
  | 0, _, _, _, _, _, hlen => absurd hlen (Nat.not_lt_zero _)
  | fuel + 1, [], link, p, hl, _, _ => by
      have hp : p = 0 := hl
      exact Or.inl ⟨by simp [findFit, hp, linkAfter], by simp⟩
  | fuel + 1, a :: l, link, p, hl, hne, hlen => by
      obtain ⟨rfl, hl⟩ := hl
      have hp : p ≠ 0 := hne p List.mem_cons_self
      by_cases hfit : r ≤ h.size p
      · exact Or.inr ⟨[], p, l, rfl, hfit, by simp [findFit, hp, hfit, linkAfter]⟩
      · have hwalk : findFit h r (fuel + 1) link p = findFit h r fuel (.next p) (h.next p) := by
          simp [findFit, hp, hfit]
        rw [hwalk]
        have hlen' : l.length < fuel := by simpa using hlen
        rcases findFit_spec h r fuel l (.next p) (h.next p) hl
          (fun a ha => hne a (List.mem_cons_of_mem _ ha)) hlen' with ⟨hw, hall⟩ | ⟨l₁, b, l₂, rfl, hb, hw⟩
        · refine Or.inl ⟨hw, ?_⟩
          intro a ha
          rcases List.mem_cons.mp ha with rfl | ha
          · omega
          · exact hall a ha
        · exact Or.inr ⟨p :: l₁, b, l₂, rfl, hb, hw⟩

theorem findPlace_spec (h : Heap) (block : Nat) :
    ∀ (fuel : Nat) (l l' : List Nat) (link : Link) (p : Nat),
      link.get h = p → Linked h.next p (l ++ l') 0 →
      (∀ a ∈ l, a ≠ 0 ∧ a < block) → (∀ a ∈ l', block ≤ a) → l.length < fuel →
      findPlace h block fuel link = some (linkAfter link l)
  | 0, _, _, _, _, _, _, _, _, hlen => absurd hlen (Nat.not_lt_zero _)
  | fuel + 1, [], l', link, p, hget, hl, _, hge, _ => by
      have hstop : ¬(link.get h ≠ 0 ∧ link.get h < block) := by
        rw [hget]
        rintro ⟨hp, hlt⟩
        cases l' with
        | nil => exact hp hl
        | cons a l' =>
            have := hge a List.mem_cons_self
            have hpa : p = a := hl.1
            omega
      simp only [findPlace, if_neg hstop, linkAfter]
  | fuel + 1, a :: l, l', link, p, hget, hl, hlt, hge, hlen => by
      obtain ⟨rfl, hl⟩ := hl
      have hp := hlt p List.mem_cons_self
      have hgo : link.get h ≠ 0 ∧ link.get h < block := by rw [hget]; exact hp
      rw [findPlace, if_pos hgo, hget]
      exact findPlace_spec h block fuel l l' (.next p) (h.next p) rfl hl
        (fun a ha => hlt a (List.mem_cons_of_mem _ ha)) hge (by simpa using hlen)

/-- The second walk of `kfree` stops at the last block walked past by the
first one. -/
theorem findPrevious_spec (h : Heap) (block : Nat) :
    ∀ (fuel : Nat) (l l' : List Nat) (c p : Nat),
      Linked h.next p (l ++ c :: block :: l') 0 → block ∉ l ++ [c] →
      l.length < fuel → findPrevious h block fuel p = some c
  | 0, _, _, _, _, _, _, hlen => absurd hlen (Nat.not_lt_zero _)
  | fuel + 1, [], l', c, p, hl, _, _ => by
      obtain ⟨rfl, hb, -⟩ := hl
      simp [findPrevious, hb]
  | fuel + 1, a :: l, l', c, p, hl, hnot, hlen => by
      obtain ⟨rfl, hl⟩ := hl
      simp only [List.cons_append, List.mem_cons, not_or] at hnot
      have hne : h.next p ≠ block := by
        cases l with
        | nil =>
            obtain ⟨hpc, -⟩ := hl
            intro hb
            exact hnot.2 (by simp [← hpc, hb])
        | cons d l =>
            obtain ⟨hpd, -⟩ := hl
            intro hb
            exact hnot.2 (by simp [← hpd, hb])
      simp only [findPrevious, if_pos hne]
      exact findPrevious_spec h block fuel l l' c (h.next p) hl hnot.2 (by simpa using hlen)

/-! ## Absorbing a neighbour -/

/-- Changing words of later blocks, or `next` fields only, leaves the
sizes and magics of the blocks before alone. -/
theorem heads_before {h h' : Heap} {a : Nat} {bs : List Seg}
    (hc : ∀ x ∈ layout headerSize a bs, h.size x.1 = x.2.size ∧ h.magic x.1 = magicOf x.2)
    (hm : ∀ x ∈ layout headerSize a bs, ∀ i < 8, h'.mem (x.1 + i) = h.mem (x.1 + i)) :
    ∀ x ∈ layout headerSize a bs, h'.size x.1 = x.2.size ∧ h'.magic x.1 = magicOf x.2 := by
  intro x hx
  obtain ⟨hs, hg⟩ := hc x hx
  exact ⟨(hm x hx 0 (by decide)).trans hs, (hm x hx 4 (by decide)).trans hg⟩

/-- Changing words below an address leaves the blocks from it on alone. -/
theorem heads_after {h h' : Heap} {a : Nat} {bs : List Seg}
    (hc : ∀ x ∈ layout headerSize a bs, h.size x.1 = x.2.size ∧ h.magic x.1 = magicOf x.2)
    (hm : ∀ y, a ≤ y → h'.mem y = h.mem y) :
    ∀ x ∈ layout headerSize a bs, h'.size x.1 = x.2.size ∧ h'.magic x.1 = magicOf x.2 := by
  refine heads_before hc fun x hx i _ => hm _ ?_
  have := (layout_bounds hx).1
  omega

/-- The same for the links of free blocks from an address on. -/
theorem linked_after {h h' : Heap} {a p q : Nat} {bs : List Seg}
    (hl : Linked h.next p (freeAddrs headerSize a bs) q)
    (hm : ∀ y, a ≤ y → h'.mem y = h.mem y) :
    Linked h'.next p (freeAddrs headerSize a bs) q := by
  refine hl.congr fun x hx => hm _ ?_
  have := (freeAddrs_bounds hx).1
  omega

/-- The same for the links of free blocks before an address. -/
theorem linked_before {h h' : Heap} {a e p q : Nat} {bs : List Seg}
    (hl : Linked h.next p (freeAddrs headerSize a bs) q) (he : a + span headerSize bs = e)
    (hm : ∀ y, y < e → h'.mem y = h.mem y) :
    Linked h'.next p (freeAddrs headerSize a bs) q := by
  refine hl.congr fun x hx => hm _ ?_
  have := (freeAddrs_bounds hx).2
  simp only [headerSize] at this he
  omega

theorem absorb_core {h : Heap} {pre post : List Seg} {t s P : Nat}
    (hc : Core h (pre ++ ⟨t, true⟩ :: ⟨s, true⟩ :: post))
    (hP : heapStart + span headerSize pre = P)
    (hfit : heapStart + span headerSize (pre ++ ⟨t, true⟩ :: ⟨s, true⟩ :: post) ≤ heapEnd) :
    Core (absorb h P (P + (headerSize + t)))
      (pre ++ ⟨t + (headerSize + s), true⟩ :: post) := by
  have hheads := hc.heads
  simp only [layout_append, layout, List.forall_mem_append, List.forall_mem_cons, hP] at hheads
  obtain ⟨hpre, ⟨hPs, hPm⟩, ⟨hQs, -⟩, hpost⟩ := hheads
  have hchain := hc.chain
  simp only [freeAddrs_append, freeAddrs_cons, hP, if_true, List.cons_append,
    List.nil_append] at hchain
  obtain ⟨m, hl, rfl, hnP, hlpost⟩ := linked_append.mp hchain
  simp only [span_append, span_cons, headerSize, heapEnd, heapStart, heapSize] at hfit hP
  simp only [headerSize] at *
  generalize hh' : absorb h m (m + (12 + t)) = h'
  -- the two words written, and nothing else
  have hother : ∀ x, x ≠ m → x ≠ m + 8 → h'.mem x = h.mem x := by
    intro x h₀ h₈
    rw [← hh']
    exact ((h.setSize _ _).store_mem_of_ne _ _ h₈).trans (h.store_mem_of_ne _ _ h₀)
  have hsize : h'.size m = t + (12 + s) := by
    have hne : m ≠ m + 8 := by omega
    rw [← hh']
    refine ((h.setSize _ _).store_mem_of_ne _ _ hne).trans ?_
    refine (h.store_mem_self _ _).trans ?_
    rw [hPs, hQs]
    unfold u32 headerSize
    omega
  have hnext : h'.next m = h.next (m + (12 + t)) := by
    have hne : m + (12 + t) + 8 ≠ m := by omega
    rw [← hh']
    exact ((h.setSize _ _).store_mem_self _ _).trans (h.store_mem_of_ne _ _ hne)
  have hw : m + (12 + (t + (12 + s))) = m + (12 + t) + (12 + s) := by omega
  have hhigh : ∀ y, m + (12 + t) + (12 + s) ≤ y → h'.mem y = h.mem y := by
    intro y hy
    exact hother y (by omega) (by omega)
  constructor
  · simp only [headerSize, layout_append, layout, List.forall_mem_append,
      List.forall_mem_cons, heapStart, hP, hw]
    refine ⟨heads_before hpre ?_, ⟨hsize, ?_⟩, heads_after hpost hhigh⟩
    · intro x hx i hi
      have := (layout_bounds hx).2
      simp only [headerSize] at this
      exact hother _ (by omega) (by omega)
    · exact (hother (m + 4) (by omega) (by omega)).trans hPm
  · have hfree : h'.freeList = h.freeList := by rw [← hh']; rfl
    simp only [headerSize, heapStart, freeAddrs_append, freeAddrs_cons, hP, hw, if_true,
      List.cons_append, List.nil_append, hfree]
    refine linked_append.mpr ⟨m, linked_before hl hP ?_, rfl, ?_⟩
    · intro y hy
      exact hother y (by omega) (by omega)
    · rw [hnext]
      exact linked_after hlpost hhigh

/-! ## Handing out a block -/

/-- Sizes, magics and links of the blocks before `B` survive when only
words from `B` on and the link the walk stopped at are written. -/
theorem before_link {h g : Heap} {pre : List Seg} {B v m : Nat}
    (hB : heapStart + span headerSize pre = B)
    (hheads : ∀ x ∈ layout headerSize heapStart pre,
      h.size x.1 = x.2.size ∧ h.magic x.1 = magicOf x.2)
    (hl : Linked h.next h.freeList (freeAddrs headerSize heapStart pre) m)
    (hfree : g.freeList = h.freeList) (hlow : ∀ y, y < B → g.mem y = h.mem y)
    {f : Heap} (hf : f = (linkAfter .head (freeAddrs headerSize heapStart pre)).set g v) :
    (∀ x ∈ layout headerSize heapStart pre,
      f.size x.1 = x.2.size ∧ f.magic x.1 = magicOf x.2) ∧
    Linked f.next f.freeList (freeAddrs headerSize heapStart pre) v ∧
    (∀ y, B ≤ y → f.mem y = g.mem y) ∧
    f.heapBegin = g.heapBegin ∧ f.heapUsed = g.heapUsed := by
  have hbelow : ∀ a ∈ freeAddrs headerSize heapStart pre, a + 8 < B := by
    intro a ha
    have := (freeAddrs_bounds ha).2
    simp only [headerSize] at this hB
    omega
  obtain ⟨hlink, hkeep, hbeg, hused⟩ := linkAfter_set (v := v) hl hfree
    (fun a ha => hlow _ (hbelow a ha)) (freeAddrs_nodup heapStart pre)
  rw [← hf] at hlink hkeep hbeg hused
  refine ⟨heads_before hheads ?_, hlink, ?_, hbeg, hused⟩
  · intro x hx i hi
    have hxB : x.1 + i < B := by
      have := (layout_bounds hx).2
      simp only [headerSize] at this hB
      omega
    rw [hkeep _ ?_, hlow _ hxB]
    intro a ha
    obtain ⟨b, hb, -⟩ := mem_freeAddrs.mp ha
    have := layout_apart hx hb
    simp only at this
    omega
  · intro y hy
    refine hkeep y fun a ha => ?_
    have := hbelow a ha
    omega

/-- A heap assembled from the blocks before an address and the rest. -/
theorem Core.of_parts {f : Heap} {pre rest : List Seg} {B q : Nat}
    (hB : heapStart + span headerSize pre = B)
    (hpre : ∀ x ∈ layout headerSize heapStart pre,
      f.size x.1 = x.2.size ∧ f.magic x.1 = magicOf x.2)
    (hrest : ∀ x ∈ layout headerSize B rest,
      f.size x.1 = x.2.size ∧ f.magic x.1 = magicOf x.2)
    (hl : Linked f.next f.freeList (freeAddrs headerSize heapStart pre) q)
    (hr : Linked f.next q (freeAddrs headerSize B rest) 0) : Core f (pre ++ rest) := by
  constructor
  · simp only [layout_append, List.forall_mem_append, hB]
    exact ⟨hpre, hrest⟩
  · simp only [freeAddrs_append, hB]
    exact linked_append.mpr ⟨q, hl, hr⟩

/-- The parts of a represented heap around an address. -/
theorem Core.parts {h : Heap} {pre rest : List Seg} {B : Nat}
    (hc : Core h (pre ++ rest)) (hB : heapStart + span headerSize pre = B) :
    (∀ x ∈ layout headerSize heapStart pre,
      h.size x.1 = x.2.size ∧ h.magic x.1 = magicOf x.2) ∧
    (∀ x ∈ layout headerSize B rest,
      h.size x.1 = x.2.size ∧ h.magic x.1 = magicOf x.2) ∧
    ∃ q, Linked h.next h.freeList (freeAddrs headerSize heapStart pre) q ∧
      Linked h.next q (freeAddrs headerSize B rest) 0 := by
  have hheads := hc.heads
  have hchain := hc.chain
  simp only [layout_append, List.forall_mem_append, hB] at hheads
  simp only [freeAddrs_append, hB] at hchain
  exact ⟨hheads.1, hheads.2, linked_append.mp hchain⟩

theorem handOut_mem (f : Heap) (B : Nat) :
    (handOut f B).size B = f.size B ∧ (handOut f B).magic B = blockAllocated ∧
      ∀ y, y ≠ B + 4 → y ≠ B + 8 → (handOut f B).mem y = f.mem y := by
  have hother : ∀ y, y ≠ B + 4 → y ≠ B + 8 → (handOut f B).mem y = f.mem y := by
    intro y h₄ h₈
    exact ((f.setNext B 0).store_mem_of_ne _ _ h₄).trans (f.store_mem_of_ne _ _ h₈)
  exact ⟨hother B (by omega) (by omega), (f.setNext B 0).store_mem_self _ _, hother⟩

section Take

variable {h : Heap} {pre post : List Seg} {s r B : Nat}

/-- An oversized block is split and its head handed out. -/
theorem takeBlock_split (hc : Core h (pre ++ ⟨s, true⟩ :: post))
    (hB : heapStart + span headerSize pre = B)
    (hfit : B + (headerSize + s) ≤ heapEnd) (hr : r + headerSize + 16 ≤ s) :
    Core (takeBlock h r (linkAfter .head (freeAddrs headerSize heapStart pre)) B)
        (pre ++ ⟨r, false⟩ :: ⟨s - r - headerSize, true⟩ :: post) ∧
      (takeBlock h r (linkAfter .head (freeAddrs headerSize heapStart pre)) B).heapBegin
        = h.heapBegin ∧
      (takeBlock h r (linkAfter .head (freeAddrs headerSize heapStart pre)) B).heapUsed
        = u32 (h.heapUsed + u32 (headerSize + r)) := by
  obtain ⟨hpre, hrest, m, hl, hlr⟩ := hc.parts hB
  simp only [layout, List.forall_mem_cons] at hrest
  obtain ⟨⟨hBs, -⟩, hpost⟩ := hrest
  simp only [freeAddrs_cons, if_true, List.cons_append, List.nil_append] at hlr
  obtain ⟨rfl, hlpost⟩ := hlr
  simp only [headerSize, heapEnd, heapStart, heapSize] at hfit hr
  -- the address of the tail, and the size it gets
  have hT : u32 (u32 (m + headerSize) + r) = m + (12 + r) := by
    unfold u32 headerSize
    omega
  have hsz : sub32 (sub32 s r) headerSize = s - r - 12 := by
    unfold sub32 headerSize
    omega
  have hcond : h.size m ≥ u32 (r + headerSize + 16) := by
    rw [hBs]
    unfold u32 headerSize
    omega
  generalize hg : (((h.setSize (m + (12 + r)) (s - r - 12)).setMagic (m + (12 + r))
    blockFree).setNext (m + (12 + r)) (h.next m)).setSize m r = g
  have hlow : ∀ y, y ≠ m → (y < m + (12 + r) ∨ m + (12 + r) + 8 < y) → g.mem y = h.mem y := by
    intro y h₀ hy
    rw [← hg]
    simp only [Heap.setSize, Heap.setMagic, Heap.setNext]
    rw [Heap.store_mem_of_ne _ _ _ h₀, Heap.store_mem_of_ne _ _ _ (by omega),
      Heap.store_mem_of_ne _ _ _ (by omega), Heap.store_mem_of_ne _ _ _ (by omega)]
  have htake : takeBlock h r (linkAfter .head (freeAddrs headerSize heapStart pre)) m =
      handOut ((linkAfter .head (freeAddrs headerSize heapStart pre)).set g (m + (12 + r))) m := by
    have hnx : ((h.setSize (m + (12 + r)) (s - r - 12)).setMagic (m + (12 + r))
        blockFree).next m = h.next m := by
      simp only [Heap.setSize, Heap.setMagic, Heap.next]
      rw [Heap.store_mem_of_ne _ _ _ (by omega), Heap.store_mem_of_ne _ _ _ (by omega)]
    unfold takeBlock
    rw [if_pos hcond]
    simp only [hT, hBs, hsz, hnx, hg]
  rw [htake]
  have hgfree : g.freeList = h.freeList := by rw [← hg]; rfl
  obtain ⟨hfpre, hfl, hfhigh, hfbeg, hfused⟩ := before_link hB hpre hl hgfree
    (fun y hy => hlow y (by omega) (by omega)) rfl
  generalize (linkAfter .head (freeAddrs headerSize heapStart pre)).set g (m + (12 + r)) = f
    at hfpre hfl hfhigh hfbeg hfused ⊢
  obtain ⟨hos, hom, hother⟩ := handOut_mem f m
  -- the words of the block and of its tail, as `g` left them
  have hgm : g.mem m = r := by rw [← hg]; exact Heap.store_mem_self _ _ _
  have hgT : g.size (m + (12 + r)) = s - r - 12 ∧ g.magic (m + (12 + r)) = blockFree ∧
      g.next (m + (12 + r)) = h.next m := by
    rw [← hg]
    simp only [Heap.size, Heap.magic, Heap.next, Heap.setSize, Heap.setMagic, Heap.setNext]
    refine ⟨?_, ?_, ?_⟩
    · rw [Heap.store_mem_of_ne _ _ _ (by omega), Heap.store_mem_of_ne _ _ _ (by omega),
        Heap.store_mem_of_ne _ _ _ (by omega), Heap.store_mem_self]
    · rw [Heap.store_mem_of_ne _ _ _ (by omega), Heap.store_mem_of_ne _ _ _ (by omega),
        Heap.store_mem_self]
    · rw [Heap.store_mem_of_ne _ _ _ (by omega), Heap.store_mem_self]
  have hfT : ∀ y, m + (12 + r) ≤ y → (handOut f m).mem y = g.mem y := by
    intro y hy
    rw [hother y (by omega) (by omega), hfhigh y (by omega)]
  have hpostm : ∀ y, m + (12 + s) ≤ y → (handOut f m).mem y = h.mem y := by
    intro y hy
    rw [hfT y (by omega), hlow y (by omega) (by omega)]
  have hw : m + (12 + r) + (12 + (s - r - 12)) = m + (12 + s) := by omega
  have hbefore : ∀ y, y < m → (handOut f m).mem y = f.mem y := by
    intro y hy
    exact hother y (by omega) (by omega)
  refine ⟨Core.of_parts hB (heads_before hfpre ?_) ?_ (linked_before hfl hB hbefore) ?_, ?_, ?_⟩
  · intro x hx i hi
    have := (layout_bounds hx).2
    simp only [headerSize] at this hB
    exact hbefore _ (by omega)
  · simp only [headerSize, layout, List.forall_mem_cons, hw]
    refine ⟨⟨?_, hom⟩, ⟨?_, ?_⟩, heads_after hpost hpostm⟩
    · rw [hos]
      exact (hfhigh m (Nat.le_refl m)).trans hgm
    · exact (hfT _ (Nat.le_refl _)).trans hgT.1
    · exact (hfT _ (by omega)).trans hgT.2.1
  · simp only [headerSize, freeAddrs_cons, hw]
    refine ⟨rfl, ?_⟩
    have : (handOut f m).next (m + (12 + r)) = h.next m :=
      (hfT _ (by omega)).trans hgT.2.2
    rw [this]
    exact linked_after hlpost hpostm
  · exact hfbeg.trans (by rw [← hg]; rfl)
  · have hfm : ((f.setNext m 0).setMagic m blockAllocated).size m = r :=
      hos.trans ((hfhigh m (Nat.le_refl m)).trans hgm)
    have hgused : g.heapUsed = h.heapUsed := by rw [← hg]; rfl
    show u32 (f.heapUsed + u32 (headerSize + _)) = _
    rw [hfm, hfused, hgused]

/-- A block that fits closely is handed out whole. -/
theorem takeBlock_whole (hc : Core h (pre ++ ⟨s, true⟩ :: post))
    (hB : heapStart + span headerSize pre = B)
    (hfit : B + (headerSize + s) ≤ heapEnd) (hrs : r ≤ s) (hr : s < r + headerSize + 16) :
    Core (takeBlock h r (linkAfter .head (freeAddrs headerSize heapStart pre)) B)
        (pre ++ ⟨s, false⟩ :: post) ∧
      (takeBlock h r (linkAfter .head (freeAddrs headerSize heapStart pre)) B).heapBegin
        = h.heapBegin ∧
      (takeBlock h r (linkAfter .head (freeAddrs headerSize heapStart pre)) B).heapUsed
        = u32 (h.heapUsed + u32 (headerSize + s)) := by
  obtain ⟨hpre, hrest, m, hl, hlr⟩ := hc.parts hB
  simp only [layout, List.forall_mem_cons] at hrest
  obtain ⟨⟨hBs, -⟩, hpost⟩ := hrest
  simp only [freeAddrs_cons, if_true, List.cons_append, List.nil_append] at hlr
  obtain ⟨rfl, hlpost⟩ := hlr
  simp only [headerSize, heapEnd, heapStart, heapSize] at hfit hr
  have hcond : ¬ h.size m ≥ u32 (r + headerSize + 16) := by
    rw [hBs]
    unfold u32 headerSize
    omega
  have htake : takeBlock h r (linkAfter .head (freeAddrs headerSize heapStart pre)) m =
      handOut ((linkAfter .head (freeAddrs headerSize heapStart pre)).set h (h.next m)) m := by
    unfold takeBlock
    rw [if_neg hcond]
  rw [htake]
  obtain ⟨hfpre, hfl, hfhigh, hfbeg, hfused⟩ := before_link hB hpre hl rfl (fun _ _ => rfl) rfl
  generalize (linkAfter .head (freeAddrs headerSize heapStart pre)).set h (h.next m) = f
    at hfpre hfl hfhigh hfbeg hfused ⊢
  obtain ⟨hos, hom, hother⟩ := handOut_mem f m
  have hfm : f.size m = s := (hfhigh m (Nat.le_refl m)).trans hBs
  have hpostm : ∀ y, m + (12 + s) ≤ y → (handOut f m).mem y = h.mem y := by
    intro y hy
    rw [hother y (by omega) (by omega), hfhigh y (by omega)]
  have hbefore : ∀ y, y < m → (handOut f m).mem y = f.mem y := by
    intro y hy
    exact hother y (by omega) (by omega)
  refine ⟨Core.of_parts hB (heads_before hfpre ?_) ?_ (linked_before hfl hB hbefore) ?_, hfbeg, ?_⟩
  · intro x hx i hi
    have := (layout_bounds hx).2
    simp only [headerSize] at this hB
    exact hbefore _ (by omega)
  · simp only [layout, List.forall_mem_cons]
    exact ⟨⟨hos.trans hfm, hom⟩, heads_after hpost hpostm⟩
  · simp only [freeAddrs_cons, Bool.false_eq_true, if_false, List.nil_append]
    exact linked_after hlpost hpostm
  · show u32 (f.heapUsed + u32 (headerSize + (handOut f m).size m)) = _
    rw [hos, hfm, hfused]

/-- A new block at the bump pointer. -/
theorem bumpBlock_core {bs : List Seg} (hc : Core h bs)
    (hbeg : h.heapBegin = heapStart + span headerSize bs) :
    Core (bumpBlock h r (headerSize + r)) (bs ++ [⟨r, false⟩]) := by
  have hB : heapStart + span headerSize bs = h.heapBegin := hbeg.symm
  have hlow : ∀ y, y < h.heapBegin → (bumpBlock h r (headerSize + r)).mem y = h.mem y := by
    intro y hy
    simp only [bumpBlock, Heap.setSize, Heap.setMagic, Heap.setNext]
    rw [Heap.store_mem_of_ne _ _ _ (by omega), Heap.store_mem_of_ne _ _ _ (by omega),
      Heap.store_mem_of_ne _ _ _ (by omega)]
  refine Core.of_parts hB (heads_before hc.heads ?_) ?_ (linked_before hc.chain hB hlow) ?_
  · intro x hx i hi
    have := (layout_bounds hx).2
    simp only [headerSize] at this hB
    exact hlow _ (by omega)
  · simp only [layout, List.forall_mem_cons]
    refine ⟨⟨?_, ?_⟩, by simp⟩
    · simp only [bumpBlock, Heap.size, Heap.setSize, Heap.setMagic, Heap.setNext]
      rw [Heap.store_mem_of_ne _ _ _ (by omega), Heap.store_mem_of_ne _ _ _ (by omega),
        Heap.store_mem_self]
    · simp only [bumpBlock, Heap.magic, Heap.setSize, Heap.setMagic, Heap.setNext]
      rw [Heap.store_mem_of_ne _ _ _ (by omega), Heap.store_mem_self]
      rfl
  · simp [Linked]

end Take

/-! ## Taking a block back -/

/-- The block put back on the free list, before any merging. -/
theorem insert_core {h : Heap} {pre post : List Seg} {s B m u : Nat}
    (hc : Core h (pre ++ ⟨s, false⟩ :: post)) (hB : heapStart + span headerSize pre = B)
    (hl : Linked h.next h.freeList (freeAddrs headerSize heapStart pre) m)
    (hlpost : Linked h.next m (freeAddrs headerSize (B + (headerSize + s)) post) 0) :
    Core ((linkAfter .head (freeAddrs headerSize heapStart pre)).set
        ((Heap.setMagic { h with heapUsed := u } B blockFree).setNext B m) B)
      (pre ++ ⟨s, true⟩ :: post) := by
  obtain ⟨hpre, hrest, -⟩ := hc.parts hB
  simp only [layout, List.forall_mem_cons] at hrest
  obtain ⟨⟨hBs, -⟩, hpost⟩ := hrest
  generalize hg : (Heap.setMagic { h with heapUsed := u } B blockFree).setNext B m = g
  have hother : ∀ y, y ≠ B + 4 → y ≠ B + 8 → g.mem y = h.mem y := by
    intro y h₄ h₈
    rw [← hg]
    simp only [Heap.setMagic, Heap.setNext]
    rw [Heap.store_mem_of_ne _ _ _ h₈, Heap.store_mem_of_ne _ _ _ h₄]
  have hgfree : g.freeList = h.freeList := by rw [← hg]; rfl
  obtain ⟨hfpre, hfl, hfhigh, -, -⟩ := before_link (v := B) hB hpre hl hgfree
    (fun y hy => hother y (by omega) (by omega)) rfl
  generalize (linkAfter .head (freeAddrs headerSize heapStart pre)).set g B = f
    at hfpre hfl hfhigh ⊢
  have hpostm : ∀ y, B + (headerSize + s) ≤ y → f.mem y = h.mem y := by
    intro y hy
    simp only [headerSize] at hy
    rw [hfhigh y (by omega), hother y (by omega) (by omega)]
  refine Core.of_parts hB hfpre ?_ hfl ?_
  · simp only [layout, List.forall_mem_cons]
    refine ⟨⟨?_, ?_⟩, heads_after hpost hpostm⟩
    · show f.mem B = s
      rw [hfhigh B (Nat.le_refl B), hother B (by omega) (by omega)]
      exact hBs
    · show f.mem (B + 4) = blockFree
      rw [hfhigh _ (by omega), ← hg]
      simp only [Heap.setMagic, Heap.setNext]
      rw [Heap.store_mem_of_ne _ _ _ (by omega), Heap.store_mem_self]
  · simp only [freeAddrs_cons, if_true, List.cons_append, List.nil_append]
    have hn : f.next B = m := by
      show f.mem (B + 8) = m
      rw [hfhigh _ (by omega), ← hg]
      exact Heap.store_mem_self _ _ _
    refine ⟨rfl, ?_⟩
    rw [hn]
    exact linked_after hlpost hpostm

/-- `mergeNext` merges exactly with a free block that follows in memory. -/
theorem mergeNext_core {h : Heap} {pre post : List Seg} {s B : Nat}
    (hc : Core h (pre ++ ⟨s, true⟩ :: post)) (hB : heapStart + span headerSize pre = B)
    (hfit : heapStart + span headerSize (pre ++ ⟨s, true⟩ :: post) ≤ heapEnd) :
    (HeadUsed post ∧ mergeNext h B = h) ∨
    ∃ u post', post = ⟨u, true⟩ :: post' ∧
      Core (mergeNext h B) (pre ++ ⟨s + (headerSize + u), true⟩ :: post') := by
  obtain ⟨-, hrest, m, -, hlr⟩ := hc.parts hB
  simp only [layout, List.forall_mem_cons] at hrest
  have hBs : h.size B = s := hrest.1.1
  simp only [freeAddrs_cons, if_true, List.cons_append, List.nil_append] at hlr
  obtain ⟨rfl, hlpost⟩ := hlr
  have hend : u32 (u32 (m + headerSize) + h.size m) = m + (headerSize + s) := by
    rw [hBs]
    simp only [span_append, span_cons] at hfit
    simp only [u32, heapEnd, heapStart, heapSize, headerSize] at *
    omega
  cases post with
  | nil =>
      refine Or.inl ⟨by simp [HeadUsed], ?_⟩
      have hnil : h.next m = 0 := hlpost
      simp [mergeNext, hnil]
  | cons next post' =>
      obtain ⟨u, free⟩ := next
      cases free with
      | true =>
          refine Or.inr ⟨u, post', rfl, ?_⟩
          simp only [freeAddrs_cons, if_true, List.cons_append, List.nil_append] at hlpost
          have hnext : h.next m = m + (headerSize + s) := hlpost.1
          have hcond : h.next m ≠ 0 ∧ u32 (u32 (m + headerSize) + h.size m) = h.next m := by
            rw [hend, hnext]
            exact ⟨by simp only [headerSize]; omega, rfl⟩
          unfold mergeNext
          rw [if_pos hcond, hnext]
          exact absorb_core hc hB hfit
      | false =>
          refine Or.inl ⟨by simp [HeadUsed], ?_⟩
          simp only [freeAddrs_cons, Bool.false_eq_true, if_false, List.nil_append] at hlpost
          have hne : u32 (u32 (m + headerSize) + h.size m) ≠ h.next m ∨ h.next m = 0 := by
            rw [hend]
            cases hl : freeAddrs headerSize (m + (headerSize + s) + (headerSize + u)) post' with
            | nil =>
                rw [hl] at hlpost
                exact Or.inr hlpost
            | cons a l =>
                rw [hl] at hlpost
                have := (@freeAddrs_bounds headerSize _ a post' (by rw [hl]; simp)).1
                rw [hlpost.1]
                simp only [headerSize] at this ⊢
                omega
          have hcond : ¬(h.next m ≠ 0 ∧ u32 (u32 (m + headerSize) + h.size m) = h.next m) := by
            tauto
          unfold mergeNext
          rw [if_neg hcond]

theorem mem_used_of_freeAddrs_nil {a : Nat} {bs : List Seg}
    (h : freeAddrs headerSize a bs = []) : ∀ b ∈ bs, b.free = false := by
  induction bs generalizing a with
  | nil => simp
  | cons c bs ih =>
      simp only [freeAddrs_cons, List.append_eq_nil_iff] at h
      refine List.forall_mem_cons.mpr ⟨?_, ih h.2⟩
      cases hc : c.free with
      | false => rfl
      | true => simp [hc] at h

theorem lastUsed_of_freeAddrs_nil {a : Nat} {pre : List Seg}
    (h : freeAddrs headerSize a pre = []) : LastUsed pre := by
  intro b hb
  exact mem_used_of_freeAddrs_nil h b (List.mem_of_getLast? hb)

/-- `mergePrevious` merges exactly with a free block that ends where the
freed one starts; the list predecessor is the only candidate. -/
theorem mergePrevious_core {h : Heap} {pre post : List Seg} {l₀ : List Nat} {s B P : Nat}
    (hc : Core h (pre ++ ⟨s, true⟩ :: post)) (hB : heapStart + span headerSize pre = B)
    (hl : freeAddrs headerSize heapStart pre = l₀ ++ [P])
    (hfit : heapStart + span headerSize (pre ++ ⟨s, true⟩ :: post) ≤ heapEnd) :
    (LastUsed pre ∧ mergePrevious h P B = h) ∨
    ∃ pre' t, pre = pre' ++ [⟨t, true⟩] ∧ heapStart + span headerSize pre' = P ∧
      Core (mergePrevious h P B) (pre' ++ ⟨t + (headerSize + s), true⟩ :: post) := by
  obtain ⟨pre', t, mid, rfl, hP, hl₀⟩ := freeAddrs_place hl
  -- nothing between the predecessor and the freed block is free
  have hmid : freeAddrs headerSize (P + (headerSize + t)) mid = [] := by
    simp only [freeAddrs_append, freeAddrs_cons, hP, if_true, List.cons_append,
      List.nil_append, hl₀] at hl
    simpa using List.append_cancel_left hl
  have hPs : h.size P = t := (hc.heads (P, ⟨t, true⟩) (by simp [layout, hP])).1
  have hend : u32 (u32 (P + headerSize) + h.size P) = P + (headerSize + t) := by
    rw [hPs]
    simp only [span_append, span_cons] at hfit
    simp only [u32, heapEnd, heapStart, heapSize, headerSize] at *
    omega
  simp only [span_append, span_cons] at hB
  cases mid with
  | nil =>
      have hPB : P + (headerSize + t) = B := by
        simp only [span_nil] at hB
        omega
      refine Or.inr ⟨pre', t, rfl, hP, ?_⟩
      unfold mergePrevious
      rw [hend, if_pos hPB, ← hPB]
      refine absorb_core (by simpa using hc) hP ?_
      simpa [Nat.add_assoc] using hfit
  | cons c mid =>
      refine Or.inl ⟨?_, ?_⟩
      · have hlast := lastUsed_of_freeAddrs_nil hmid
        intro b hb
        refine hlast b ?_
        simpa [List.getLast?_append, List.getLast?_cons] using hb
      · have hne : P + (headerSize + t) ≠ B := by
          simp only [span_cons, headerSize] at hB hP ⊢
          omega
        unfold mergePrevious
        rw [hend, if_neg hne]

@[simp] theorem mergeNext_statics (h : Heap) (B : Nat) :
    (mergeNext h B).heapBegin = h.heapBegin ∧ (mergeNext h B).heapUsed = h.heapUsed := by
  unfold mergeNext
  split <;> exact ⟨rfl, rfl⟩

@[simp] theorem mergePrevious_statics (h : Heap) (P B : Nat) :
    (mergePrevious h P B).heapBegin = h.heapBegin ∧
      (mergePrevious h P B).heapUsed = h.heapUsed := by
  unfold mergePrevious
  split <;> exact ⟨rfl, rfl⟩

theorem linkSet_statics (h : Heap) (link : Link) (v : Nat) :
    (link.set h v).heapBegin = h.heapBegin ∧ (link.set h v).heapUsed = h.heapUsed := by
  cases link <;> exact ⟨rfl, rfl⟩

end LiteBSD
