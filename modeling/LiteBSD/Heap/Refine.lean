/-
# `LiteBSD.Heap.Refine` — `kmalloc` and `kfree` refine the steps of a tiling

    Rep h bs → kmalloc h n = ret (h', p) → ∃ bs', AllocStep … bs bs' ∧ Rep h' bs'
    Rep h bs → kfree h p = ret h'        → ∃ bs', FreeStep … bs bs' ∧ Rep h' bs'

Neither walk runs out of fuel, so that `kfree` of a live pointer always
returns and `kmalloc` returns or ends in `err()`.
-/
import LiteBSD.Heap.Represent

namespace LiteBSD

open Lib

/-! ## `kmalloc` -/

theorem alignSize_spec {n : Nat} (hle : n ≤ heapSize - headerSize) :
    n ≤ alignSize n ∧ 4 ∣ alignSize n ∧ alignSize n ≤ heapSize - headerSize ∧
      alignSize n < n + 4 := by
  simp only [alignSize, u32, heapSize, headerSize] at *
  omega

/-- The invariant is put together from the words and the abstract step. -/
theorem Rep.alloc {h h' : Heap} {bs bs' : List Seg} {r o : Nat} (hrep : Rep h bs)
    (hstep : AllocStep headerSize r o bs bs') (hr : 4 ∣ r) (hc : Core h' bs')
    (hbeg : h'.heapBegin = heapStart + span headerSize bs') (hfit : h'.heapBegin ≤ heapEnd)
    (hused : h'.heapUsed = usedBytes headerSize bs') : Rep h' bs' :=
  { hc with
    begin_eq := hbeg
    fits := hfit
    used_eq := hused
    sep := hstep.separated hrep.sep
    aligned := hstep.dvd_size (by decide) hr hrep.aligned }

/-- `kmalloc` once the walk has ended. -/
theorem kmalloc_of_findFit {h : Heap} {n block : Nat} {link : Link} (hn : n ≠ 0)
    (hbig : ¬n > heapSize - headerSize)
    (hw : findFit h (alignSize n) (walkFuel h) .head h.freeList = some (link, block)) :
    kmalloc h n =
      if block ≠ 0 then .ret (takeBlock h (alignSize n) link block, u32 (block + headerSize))
      else if h.heapBegin > sub32 heapEnd (u32 (headerSize + alignSize n)) then
        .panic "Out of memory."
      else .ret (bumpBlock h (alignSize n) (u32 (headerSize + alignSize n)),
        u32 (h.heapBegin + headerSize)) := by
  unfold kmalloc
  rw [if_neg hn, if_neg hbig]
  dsimp only
  rw [hw]

/-- What `kmalloc` can do in a represented heap: hand out a block by an
abstract step, or end in `err()`. -/
theorem kmalloc_refines {h : Heap} {bs : List Seg} (hrep : Rep h bs) {n : Nat} (hn : n ≠ 0) :
    (∃ h' o bs', kmalloc h n = .ret (h', heapStart + o + headerSize) ∧
      AllocStep headerSize (alignSize n) o bs bs' ∧ Rep h' bs') ∨
    ∃ msg, kmalloc h n = .panic msg := by
  by_cases hbig : n > heapSize - headerSize
  · exact Or.inr ⟨"Allocation too large.", by simp [kmalloc, hn, hbig]⟩
  obtain ⟨-, hr4, hrle, -⟩ := alignSize_spec (Nat.not_lt.mp hbig)
  have hwalk (link : Link) (block : Nat) := @kmalloc_of_findFit h n block link hn hbig
  generalize hr : alignSize n = r at *
  have hfit := hrep.fits
  rw [hrep.begin_eq] at hfit
  have hub := @usedBytes_le_span headerSize bs
  rcases findFit_spec h r (walkFuel h) (freeAddrs headerSize heapStart bs) .head h.freeList hrep.chain
    freeAddrs_ne_zero (freeAddrs_lt_walkFuel hrep.begin_eq.ge) with ⟨hw, -⟩ | ⟨l₁, b, l₂, hl, hb, hw⟩
  · -- nothing fits: grow, or run out
    rw [hwalk _ _ hw]
    simp only [ne_eq, not_true_eq_false, if_false]
    have htot : u32 (headerSize + r) = headerSize + r := by
      simp only [u32, headerSize, heapSize] at *
      omega
    by_cases hoom : h.heapBegin > sub32 heapEnd (headerSize + r)
    · exact Or.inr ⟨"Out of memory.", by rw [htot, if_pos hoom]⟩
    · have hroom : h.heapBegin + (headerSize + r) ≤ heapEnd := by
        simp only [sub32, heapEnd, heapStart, heapSize, headerSize] at *
        omega
      refine Or.inl ⟨bumpBlock h r (headerSize + r), span headerSize bs, bs ++ [⟨r, false⟩], ?_,
        .grow, hrep.alloc .grow hr4 (bumpBlock_core hrep.toCore hrep.begin_eq) ?_ ?_ ?_⟩
      · rw [htot, if_neg hoom, hrep.begin_eq]
        congr 2
        simp only [u32, heapEnd, heapStart, heapSize, headerSize] at *
        omega
      · show u32 (h.heapBegin + (headerSize + r)) = _
        rw [hrep.begin_eq] at hroom ⊢
        simp only [u32, heapEnd, heapStart, heapSize, headerSize, span_append, span_cons,
          span_nil] at *
        omega
      · show u32 (h.heapBegin + (headerSize + r)) ≤ _
        simp only [u32, heapEnd, heapStart, heapSize, headerSize] at *
        omega
      · show u32 (h.heapUsed + (headerSize + r)) = _
        rw [hrep.used_eq]
        rw [hrep.begin_eq] at hroom
        simp [usedBytes]
        simp only [u32, heapEnd, heapStart, heapSize, headerSize] at *
        omega
  · -- a free block fits: split it or take it whole
    obtain ⟨pre, s, post, rfl, hB, rfl⟩ := freeAddrs_place hl
    have hbs : h.size b = s := by
      have := hrep.heads (b, ⟨s, true⟩) (by simp [layout, hB])
      exact this.1
    have hroom : b + (headerSize + s) ≤ heapEnd := by
      simp only [span_append, span_cons] at hfit
      omega
    have hmem : b ∈ freeAddrs headerSize heapStart (pre ++ ⟨s, true⟩ :: post) := by simp [hB]
    have hb0 : b ≠ 0 := freeAddrs_ne_zero b hmem
    rw [hbs] at hb
    rw [hwalk _ _ hw]
    simp only [ne_eq, hb0, not_false_eq_true, if_true]
    have hptr : u32 (b + headerSize) = heapStart + span headerSize pre + headerSize := by
      rw [hB]
      simp only [u32, heapEnd, heapStart, heapSize, headerSize] at *
      omega
    rw [hptr]
    have hused := hrep.used_eq
    simp only [usedBytes_append, usedBytes, if_true, Nat.zero_add, span_append,
      span_cons] at hused hub hfit
    by_cases hsplit : r + headerSize + 16 ≤ s
    · obtain ⟨hc, hbeg, hu⟩ := takeBlock_split hrep.toCore hB hroom hsplit
      have hstep : AllocStep headerSize r (span headerSize pre) (pre ++ ⟨s, true⟩ :: post)
          (pre ++ ⟨r, false⟩ :: ⟨s - r - headerSize, true⟩ :: post) := .split (by omega)
      refine Or.inl ⟨_, _, _, rfl, hstep, hrep.alloc hstep hr4 hc ?_ ?_ ?_⟩
      · rw [hbeg, hrep.begin_eq]
        simp only [span_append, span_cons]
        omega
      · rw [hbeg]
        exact hrep.fits
      · rw [hu, hused]
        simp only [usedBytes_append, usedBytes, Bool.false_eq_true, if_false, if_true]
        simp only [u32, heapEnd, heapStart, heapSize, headerSize] at *
        omega
    · obtain ⟨hc, hbeg, hu⟩ := takeBlock_whole hrep.toCore hB hroom hb (by omega)
      have hstep : AllocStep headerSize r (span headerSize pre) (pre ++ ⟨s, true⟩ :: post)
          (pre ++ ⟨s, false⟩ :: post) := .take hb
      refine Or.inl ⟨_, _, _, rfl, hstep, hrep.alloc hstep hr4 hc ?_ ?_ ?_⟩
      · rw [hbeg, hrep.begin_eq]
        simp only [span_append, span_cons]
      · rw [hbeg]
        exact hrep.fits
      · rw [hu, hused]
        simp only [usedBytes_append, usedBytes, Bool.false_eq_true, if_false]
        simp only [u32, heapEnd, heapStart, heapSize, headerSize] at *
        omega

/-! ## `kfree` -/

/-- The invariant after taking a block back. -/
theorem Rep.free {h h' : Heap} {bs bs' : List Seg} {o s : Nat} (hrep : Rep h bs)
    (hstep : FreeStep headerSize o s bs bs') (hc : Core h' bs')
    (hbeg : h'.heapBegin = h.heapBegin)
    (hused : h'.heapUsed = sub32 h.heapUsed (u32 (headerSize + s))) : Rep h' bs' := by
  have hub := @usedBytes_le_span headerSize bs
  have hueq := hstep.usedBytes_eq
  have hfit := hrep.fits
  rw [hrep.begin_eq] at hfit
  refine { hc with
    begin_eq := by rw [hbeg, hstep.span_eq, hrep.begin_eq]
    fits := by rw [hbeg]; exact hrep.fits
    used_eq := ?_
    sep := hstep.separated hrep.sep
    aligned := hstep.dvd_size (by decide) hrep.aligned }
  rw [hused, hrep.used_eq]
  simp only [u32, sub32, heapEnd, heapStart, heapSize, headerSize] at *
  omega

/-- The second walk of `kfree` stops at the last free block before the one
that was put back. -/
theorem findPrevious_of_core {g : Heap} {pre post : List Seg} {l₀ : List Nat} {s B P : Nat}
    (hc : Core g (pre ++ ⟨s, true⟩ :: post)) (hB : heapStart + span headerSize pre = B)
    (hl : freeAddrs headerSize heapStart pre = l₀ ++ [P])
    (hfit : heapStart + span headerSize (pre ++ ⟨s, true⟩ :: post) ≤ g.heapBegin) :
    findPrevious g B (walkFuel g) g.freeList = some P := by
  have hchain := hc.chain
  have hnd := freeAddrs_nodup heapStart (pre ++ ⟨s, true⟩ :: post)
  have hlen := freeAddrs_lt_walkFuel hfit
  simp only [freeAddrs_append, freeAddrs_cons, hB, hl, if_true, List.cons_append,
    List.nil_append, List.append_assoc] at hchain hnd hlen
  have hnot : B ∉ l₀ ++ [P] := by
    intro hmem
    have := (List.nodup_append.mp (by simpa using hnd : ((l₀ ++ [P]) ++ B :: _).Nodup)).2.2
    exact this B hmem B (by simp) rfl
  refine findPrevious_spec _ B _ l₀ _ P _ hchain hnot ?_
  simp only [List.length_append] at hlen
  omega

/-- Both merges together take the block back by an abstract step. -/
theorem coalesce_refines {g : Heap} {pre post : List Seg} {s B : Nat}
    (hc : Core g (pre ++ ⟨s, true⟩ :: post)) (hB : heapStart + span headerSize pre = B)
    (hbeg : heapStart + span headerSize (pre ++ ⟨s, true⟩ :: post) ≤ g.heapBegin)
    (hend : g.heapBegin ≤ heapEnd) :
    ∃ h' bs', coalesce g (linkAfter .head (freeAddrs headerSize heapStart pre)) B = .ret h' ∧
      FreeStep headerSize (span headerSize pre) s (pre ++ ⟨s, false⟩ :: post) bs' ∧
      Core h' bs' ∧ h'.heapBegin = g.heapBegin ∧ h'.heapUsed = g.heapUsed := by
  have hfit := hbeg.trans hend
  simp only [coalesce]
  obtain ⟨hnb, hnu⟩ := mergeNext_statics g B
  -- the first merge, with what it leaves at the address of the block
  obtain ⟨s₂, post₂, hc₂, hspan, halone, hprev⟩ : ∃ s₂ post₂,
      Core (mergeNext g B) (pre ++ ⟨s₂, true⟩ :: post₂) ∧
      span headerSize (pre ++ ⟨s₂, true⟩ :: post₂) = span headerSize (pre ++ ⟨s, true⟩ :: post) ∧
      (LastUsed pre → FreeStep headerSize (span headerSize pre) s
        (pre ++ ⟨s, false⟩ :: post) (pre ++ ⟨s₂, true⟩ :: post₂)) ∧
      ∀ pre' t, pre = pre' ++ [⟨t, true⟩] → FreeStep headerSize (span headerSize pre) s
        (pre ++ ⟨s, false⟩ :: post) (pre' ++ ⟨t + (headerSize + s₂), true⟩ :: post₂) := by
    rcases mergeNext_core hc hB hfit with ⟨hhead, hm⟩ | ⟨u, post', rfl, hcm⟩
    · refine ⟨s, post, by rwa [hm], rfl, fun hlast => .alone hlast hhead, ?_⟩
      rintro pre' t rfl
      simpa [Nat.add_assoc] using @FreeStep.prev headerSize pre' post t s hhead
    · refine ⟨s + (headerSize + u), post', hcm, by simp; omega, fun hlast => .next hlast, ?_⟩
      rintro pre' t rfl
      simpa [Nat.add_assoc] using @FreeStep.both headerSize pre' post' t s u
  rcases List.eq_nil_or_concat' (freeAddrs headerSize heapStart pre) with hnil | ⟨l₀, P, hl⟩
  · rw [if_pos (linkAfter_eq_head.mpr hnil)]
    exact ⟨_, _, rfl, halone (lastUsed_of_freeAddrs_nil hnil), hc₂, hnb, hnu⟩
  · have hlink : linkAfter .head (freeAddrs headerSize heapStart pre) ≠ .head := by
      rw [hl, linkAfter_concat]
      simp
    have hfind := findPrevious_of_core hc₂ hB hl (by rwa [hspan, hnb])
    rw [if_neg hlink, hfind]
    obtain ⟨hpb, hpu⟩ := mergePrevious_statics (mergeNext g B) P B
    rcases mergePrevious_core hc₂ hB hl (by rwa [hspan]) with ⟨hlast, hm⟩ | ⟨pre', t, hpre, -, hcm⟩
    · exact ⟨_, _, rfl, halone hlast, by rwa [hm], hpb.trans hnb, hpu.trans hnu⟩
    · exact ⟨_, _, rfl, hprev pre' t hpre, hcm, hpb.trans hnb, hpu.trans hnu⟩

/-- The place of a block in the free list is after the free blocks below it,
whatever the byte counter says. -/
theorem findPlace_block {h : Heap} {pre post : List Seg} {s B m u : Nat}
    (hB : heapStart + span headerSize pre = B)
    (hl : Linked h.next h.freeList (freeAddrs headerSize heapStart pre) m)
    (hlpost : Linked h.next m (freeAddrs headerSize (B + (headerSize + s)) post) 0)
    (hfit : B ≤ h.heapBegin) :
    findPlace { h with heapUsed := u } B (walkFuel { h with heapUsed := u }) .head =
      some (linkAfter .head (freeAddrs headerSize heapStart pre)) := by
  refine findPlace_spec _ B _ _ _ .head h.freeList rfl
    (linked_append.mpr ⟨m, hl, hlpost⟩) ?_ ?_ ?_
  · intro a ha
    have := freeAddrs_bounds ha
    simp only [headerSize] at this hB
    exact ⟨freeAddrs_ne_zero a ha, by omega⟩
  · intro a ha
    have := (freeAddrs_bounds ha).1
    omega
  · rw [← hB] at hfit
    exact freeAddrs_lt_walkFuel hfit

/-- `kfree` of the pointer to a block in use: the block goes back to its place
on the list, and is merged there. -/
theorem kfree_eq {h : Heap} {pre post : List Seg} {s B : Nat} (hrep : Rep h (pre ++ ⟨s, false⟩ :: post))
    (hB : heapStart + span headerSize pre = B) :
    ∃ m, Linked h.next h.freeList (freeAddrs headerSize heapStart pre) m ∧
      Linked h.next m (freeAddrs headerSize (B + (headerSize + s)) post) 0 ∧
      kfree h (B + headerSize) =
        coalesce ((linkAfter .head (freeAddrs headerSize heapStart pre)).set
          ((Heap.setMagic { h with heapUsed := sub32 h.heapUsed (u32 (headerSize + s)) } B blockFree).setNext B m) B)
          (linkAfter .head (freeAddrs headerSize heapStart pre)) B := by
  obtain ⟨-, hrest, m, hl, hlpost⟩ := hrep.toCore.parts hB
  simp only [layout, List.forall_mem_cons] at hrest
  obtain ⟨⟨hBs, hBm⟩, -⟩ := hrest
  simp only [freeAddrs_cons, Bool.false_eq_true, if_false, List.nil_append] at hlpost
  have hfit := hrep.fits
  rw [hrep.begin_eq] at hfit
  have hblock : sub32 (B + headerSize) headerSize = B := by
    simp only [span_append, span_cons] at hfit
    simp only [sub32, heapEnd, heapStart, heapSize, headerSize] at *
    omega
  -- the pointer passes the three tests of `kfree`
  have hok : ¬(h.magic B ≠ blockAllocated ∨ B < heapStart ∨ B ≥ h.heapBegin) := by
    have hmag : h.magic B = blockAllocated := hBm
    rw [hmag, hrep.begin_eq]
    simp only [span_append, span_cons, headerSize] at hB ⊢
    omega
  have hroom : B ≤ h.heapBegin := by
    rw [hrep.begin_eq, ← hB, span_append]
    omega
  -- the new counter is kept abstract: the walk does not look at it
  generalize hu : sub32 h.heapUsed (u32 (headerSize + s)) = u
  have hplace := findPlace_block (u := u) hB hl hlpost hroom
  have hget : (linkAfter .head (freeAddrs headerSize heapStart pre)).get
      (Heap.setMagic { h with heapUsed := u } B blockFree) = m := by
    refine linkAfter_get (hl.congr fun a ha => ?_)
    have := (freeAddrs_bounds ha).2
    simp only [headerSize] at this hB
    exact Heap.store_mem_of_ne _ _ _ (by omega)
  have hp0 : B + headerSize ≠ 0 := by
    simp only [headerSize]
    omega
  refine ⟨m, hl, hlpost, ?_⟩
  simp only [kfree, if_neg hp0, hblock, if_neg hok, hBs, hu, hplace, hget]

/-- `kfree` of the pointer to a block in use returns, and takes exactly
that block back. -/
theorem kfree_refines {h : Heap} {pre post : List Seg} {s : Nat}
    (hrep : Rep h (pre ++ ⟨s, false⟩ :: post)) :
    ∃ h' bs', kfree h (heapStart + span headerSize pre + headerSize) = .ret h' ∧
      FreeStep headerSize (span headerSize pre) s (pre ++ ⟨s, false⟩ :: post) bs' ∧
      Rep h' bs' := by
  generalize hB : heapStart + span headerSize pre = B
  obtain ⟨m, hl, hlpost, hret⟩ := kfree_eq hrep hB
  generalize hu : sub32 h.heapUsed (u32 (headerSize + s)) = u at hret
  have hcore := insert_core (u := u) hrep.toCore hB hl hlpost
  have hstat := linkSet_statics ((Heap.setMagic { h with heapUsed := u } B blockFree).setNext B m)
    (linkAfter .head (freeAddrs headerSize heapStart pre)) B
  obtain ⟨h', bs', hco, hstep, hc', hbeg, hused⟩ := coalesce_refines hcore hB
    (by rw [hstat.1]; exact hrep.begin_eq.ge.trans' (by simp))
    (by rw [hstat.1]; exact hrep.fits)
  exact ⟨h', bs', hret.trans hco, hstep,
    hrep.free hstep hc' (hbeg.trans hstat.1) (hused.trans (hstat.2.trans hu.symm))⟩

end LiteBSD
