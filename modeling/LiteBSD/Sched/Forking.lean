/-
# `LiteBSD.Sched.Forking` — what a fork makes of the parent's stack

The child of `fork_task` can go on where its parent is, on a stack of its own
(`Forked`): the stack is copied byte for byte, but for the saved frame pointers
on the chain, which point into the copy.

    ebp in the stack           the chain is shifted in the copy
    ebp elsewhere              the copy is plain, nothing is to be shifted
    ebp at the end of memory   `cur + 4` wraps around: the walk reads the word
                               there, and goes on where it leads
-/
import LiteBSD.Sched.FrameChain

namespace LiteBSD.Frames

open Lib

/-- What a fork is for: the child can go on where the parent is, on a stack of
its own. -/
structure Forked (t : Stacks) (frame ustack : Nat) (m m' : Bytes) (child : Child) : Prop where
  copy : StackCopy t ustack (Pointing t m (wordAt m (frame + ebpAt))) m m'
  useresp : wordAt m' (child.frame + userespAt) = shifted t ustack (wordAt m (frame + userespAt))
  ebp : wordAt m' (child.frame + ebpAt) = shifted t ustack (wordAt m (frame + ebpAt))
  eax : wordAt m' (child.frame + eaxAt) = 0
  parent : ∀ x, t.userStackBase ≤ x → x < t.userStackTop → m' x = m x

section Fork

variable {t : Stacks} {frame stack task ustack fuel : Nat} {m m' : Bytes}

/-- `fork_task`, whatever the walk comes to. -/
theorem forkTask_spec (hblocks : ForkBlocks t frame stack ustack) (htask : task ≠ 0)
    (hfar : ¬(ustack ≤ wordAt m (frame + ebpAt) ∧
      wordAt m (frame + ebpAt) < ustack + (t.userStackTop - t.userStackBase)))
    (haligned : ChainAligned t m (wordAt m (frame + ebpAt)))
    (haligned' : lastWord ≤ wordAt m (frame + ebpAt) → ChainAligned t m (wordAt m (wordAt m (frame + ebpAt))))
    (hfuel : t.userStackTop - t.userStackBase + 3 ≤ fuel) :
    ∃ m' child, forkTask fuel m t frame stack task ustack = .ret (m', some child) ∧
      StackCopy t ustack (Walked t m (wordAt m (frame + ebpAt))) m m' ∧
      (StackCopy t ustack (Pointing t m (wordAt m (frame + ebpAt))) m m' → Forked t frame ustack m m' child) := by
  obtain ⟨hp, hb⟩ := hblocks.bounds
  obtain ⟨hoffset, hframe⟩ := hb.childFrame
  obtain ⟨huseresp, hebp, heax⟩ := beforeWalk_frame (m := m) hp hb
  have hcopy := hb.copy
  have hlow := hp.low
  have htop := hp.high
  have hne := hp.nonempty
  have hsize : stackSize t = t.userStackTop - t.userStackBase := by
    have hbounded := hp.bounded
    rw [stackSize, sub32_of_le (by omega) (by omega)]
    exact if_neg (by omega)
  have hlast (h : lastWord ≤ wordAt m (frame + ebpAt)) :
      wordAt (beforeWalk m t frame stack ustack) (wordAt m (frame + ebpAt)) = wordAt m (wordAt m (frame + ebpAt)) := by
    have hlt := wordAt_lt m (frame + ebpAt)
    unfold lastWord at h
    refine wordAt_of_bytes fun j hj => beforeWalk_outside hp hb (Nat.mod_lt _ (by decide)) ?_ ?_
    all_goals
      unfold u32
      omega
  obtain ⟨m', hwalk, hstack, hout⟩ := walkEbp_spec hp (wordAt_lt m (frame + ebpAt))
    (fun x hx hx' => beforeWalk_plain (m := m) hp hb hx hx') hfar hlast haligned haligned' hfuel
  obtain ⟨hframe₁, hframe₂⟩ := hb.frame
  have hchild := hb.child
  have hparent := hb.parent
  have hap := hp.apart
  unfold lastWord at hout
  -- the walk leaves the frame of the child
  have hkept (o : Nat) (ho : o + 4 ≤ 76) : wordAt m' (stack + (frame - t.stackBase) + o) =
      wordAt (beforeWalk m t frame stack ustack) (stack + (frame - t.stackBase) + o) :=
    wordAt_congr (by omega) (by omega) fun j hj => hout _ (by omega) (by omega) (by omega)
  have hcur : wordAt (beforeWalk m t frame stack ustack) (u32 (stack + (frame - t.stackBase) + ebpAt)) =
      shifted t ustack (wordAt m (frame + ebpAt)) := by
    rw [u32_of_lt (by unfold ebpAt; omega), hebp]
  refine ⟨m', ⟨⟨stack, ustack, u32 (t.userStackTop + sub32 ustack t.userStackBase)⟩, stack + (frame - t.stackBase)⟩,
    ?_, hstack, fun hpointing => ?_⟩
  · rw [forkTask, if_neg (by omega)]
    dsimp only
    rw [if_neg (Nat.not_le.mpr hoffset), if_neg htask, if_neg (by omega), if_neg (by omega), hframe, hsize]
    rw [← hcur] at hwalk
    unfold beforeWalk at hwalk
    rw [hwalk]
  · refine ⟨hpointing, ?_, ?_, ?_, fun x hx hx' => ?_⟩
    · exact (hkept userespAt (by decide)).trans huseresp
    · exact (hkept ebpAt (by decide)).trans hebp
    · exact (hkept eaxAt (by decide)).trans heax
    · rw [hout x (by omega) (by omega) (by omega)]
      exact beforeWalk_outside hp hb (by omega) (by omega) (by omega)

/-! ## Both ways -/

/-- The frame pointer is at the very end of memory, where `cur + 4` wraps
around, and the word there leads to a saved frame pointer on the stack. -/
structure Overruns (t : Stacks) (m : Bytes) (ebp : Nat) : Prop where
  last : lastWord ≤ ebp
  cell : savedEbp t (wordAt m ebp) = .cell (wordAt m ebp)
  points : intoStack t (wordAt m (wordAt m ebp))

theorem Pointing.first {start cell : Nat} (h : Pointing t m start cell) : intoStack t (wordAt m start) := by
  obtain ⟨⟨-, hchain⟩, hpoints⟩ := h
  have hfirst : cell = start ∨ intoStack t (wordAt m start) := by
    clear hpoints
    induction hchain with
    | start => exact .inl rfl
    | @next a b _ hlink ih =>
        right
        rcases ih with rfl | hinto
        · obtain ⟨hlow, hhigh, -⟩ := savedEbp_cell.mp hlink
          exact ⟨hlow, Nat.le_of_add_right_le hhigh⟩
        · exact hinto
  rcases hfirst with rfl | hinto
  · exact hpoints
  · exact hinto

theorem walked_iff {ebp cell : Nat} (h : ¬Overruns t m ebp) : Walked t m ebp cell ↔ Pointing t m ebp cell :=
  ⟨fun hw => hw.resolve_right fun ⟨hlast, hpoints⟩ => h ⟨hlast, hpoints.1.1, hpoints.first⟩, .inl⟩

/-- A fork that begins its walk at the end of memory spoils a word of the copy. -/
theorem not_copy_of_overruns {ebp : Nat} (hp : Placed t ustack) (h : Overruns t m ebp)
    (hwalked : StackCopy t ustack (Walked t m ebp) m m') : ¬StackCopy t ustack (Pointing t m ebp) m m' := by
  intro hcopy
  obtain ⟨hlast, hcell, hpoints⟩ := h
  obtain ⟨hlow, hhigh, -⟩ := savedEbp_cell.mp hcell
  have hne := hp.nonempty
  have hap := hp.apart
  have htop := hp.high
  -- the frame pointer is not one of the stack, so that nothing is to be shifted
  have hnone (c : Nat) (hc : Pointing t m ebp c) : False := by
    have hhigh' := hc.into.2
    unfold lastWord at hlast
    omega
  have hkept : wordAt m' (inCopy t ustack (wordAt m ebp)) = wordAt m (wordAt m ebp) := by
    refine wordAt_congr (by unfold inCopy; omega) (by omega) fun j hj => ?_
    have hbyte := hcopy.rest (wordAt m ebp + j) (by omega) (by omega) fun c hc => (hnone c hc).elim
    rw [← hbyte]
    congr 1
    unfold inCopy
    omega
  have hshifted := hwalked.shifted _ (.inr ⟨hlast, ⟨hcell, .start⟩, hpoints⟩)
  rw [hp.shift hpoints, hkept] at hshifted
  obtain ⟨hlow', hhigh'⟩ := hpoints
  unfold inCopy at hshifted
  omega

end Fork

/-- A chain that is not entered through the end of memory is one word long. -/
theorem chainAligned_of_not_overruns {t : Stacks} {m : Bytes} {ebp : Nat} (h : ¬Overruns t m ebp)
    (hlast : lastWord ≤ ebp) : ChainAligned t m (wordAt m ebp) := by
  have hone (a : Nat) (ha : FrameChain t m (wordAt m ebp) a) : a = wordAt m ebp := by
    obtain ⟨hcell, hchain⟩ := ha
    induction hchain with
    | start => rfl
    | @next b c _ hlink ih =>
        rw [ih] at hlink
        obtain ⟨hlow, hhigh, -⟩ := savedEbp_cell.mp hlink
        exact absurd ⟨hlast, hcell, hlow, Nat.le_of_add_right_le hhigh⟩ h
  intro a b ha hb
  rw [hone a ha, hone b hb]

/-- For every parent with a user stack of up to 64 KiB, every frame of it, and
every block for the child that its frame pointer is not in: if the words of
the chain do not overlap, the fork comes to an end and does what it is for,
unless the walk begins at the end of memory, and only then. -/
theorem fork_relocates_iff {t : Stacks} {frame stack task ustack : Nat} {m : Bytes}
    (hblocks : ForkBlocks t frame stack ustack) (htask : task ≠ 0)
    (hfar : ¬(ustack ≤ wordAt m (frame + ebpAt) ∧
      wordAt m (frame + ebpAt) < ustack + (t.userStackTop - t.userStackBase)))
    (haligned : ChainAligned t m (wordAt m (frame + ebpAt)))
    (hoverrun : Overruns t m (wordAt m (frame + ebpAt)) → ChainAligned t m (wordAt m (wordAt m (frame + ebpAt)))) :
    (∀ fuel, t.userStackTop - t.userStackBase + 3 ≤ fuel → ∃ m' child,
      forkTask fuel m t frame stack task ustack = .ret (m', some child) ∧ Forked t frame ustack m m' child) ↔
      ¬Overruns t m (wordAt m (frame + ebpAt)) := by
  have haligned' (hlast : lastWord ≤ wordAt m (frame + ebpAt)) :
      ChainAligned t m (wordAt m (wordAt m (frame + ebpAt))) := by
    by_cases hover : Overruns t m (wordAt m (frame + ebpAt))
    · exact hoverrun hover
    · exact chainAligned_of_not_overruns hover hlast
  constructor
  · intro hall hover
    obtain ⟨m', child, hm', hforked⟩ := hall _ (Nat.le_refl _)
    obtain ⟨m'', child', hm'', hwalked, -⟩ := forkTask_spec hblocks htask hfar haligned haligned' (Nat.le_refl _)
    rw [hm'] at hm''
    cases hm''
    exact not_copy_of_overruns hblocks.bounds.1 hover hwalked hforked.copy
  · intro hnot fuel hfuel
    obtain ⟨m', child, hm', hwalked, hforked⟩ := forkTask_spec hblocks htask hfar haligned haligned' hfuel
    exact ⟨m', child, hm', hforked (hwalked.congr fun c => walked_iff hnot)⟩

/-- A parent with a stack of one page. -/
def pageStacks : Stacks := ⟨0x500000, 0xFC0000, 0xFC1000⟩

theorem pageStacks_blocks : ForkBlocks pageStacks 0x500FB4 0x600000 0x700000 where
  frame := by decide
  size := by decide
  inHeap := by
    intro r hr
    simp only [stackBlocks, List.mem_cons, List.not_mem_nil, or_false] at hr
    rcases hr with rfl | rfl | rfl | rfl
    all_goals exact ⟨by decide, by decide⟩
  apart := by
    simp [stackBlocks, pageStacks, Apart, Region.stop, headerSize]

/-- Two frames on the stack, and the end of the chain. -/
def twoFrames : Bytes :=
  storeWord (storeWord (storeWord (fun _ => 0) (0x500FB4 + ebpAt) 0xFC0F00) 0xFC0F00 0xFC0F80) 0xFC0F80 0

/-- The fork of a parent in a function that was called by another. -/
theorem fork_of_two_frames : FrameChain pageStacks twoFrames 0xFC0F00 0xFC0F80 ∧
    ∀ fuel, 0x1000 + 3 ≤ fuel → ∃ m' child,
      forkTask fuel twoFrames pageStacks 0x500FB4 0x600000 0x650000 0x700000 = .ret (m', some child) ∧
        Forked pageStacks 0x500FB4 0x700000 twoFrames m' child := by
  have hebp : wordAt twoFrames (0x500FB4 + ebpAt) = 0xFC0F00 := by decide
  have hchain (a : Nat) (ha : FrameChain pageStacks twoFrames 0xFC0F00 a) : a = 0xFC0F00 ∨ a = 0xFC0F80 := by
    obtain ⟨-, hchain⟩ := ha
    induction hchain with
    | start => exact .inl rfl
    | @next a b _ hlink ih =>
        right
        rcases ih with rfl | rfl
        · rw [show wordAt twoFrames 0xFC0F00 = 0xFC0F80 by decide] at hlink
          exact (savedEbp_cell.mp hlink).2.2
        · rw [show wordAt twoFrames 0xFC0F80 = 0 by decide] at hlink
          exact absurd (savedEbp_cell.mp hlink).1 (by decide)
  have hno : ¬Overruns pageStacks twoFrames (wordAt twoFrames (0x500FB4 + ebpAt)) := by
    rw [hebp]
    exact fun h => absurd h.last (by decide)
  have hboth : FrameChain pageStacks twoFrames 0xFC0F00 0xFC0F80 :=
    ⟨by decide, OnChain.start.next (by decide)⟩
  refine ⟨hboth, (fork_relocates_iff pageStacks_blocks (show 0x650000 ≠ 0 by decide) ?_ ?_ fun h =>
    absurd h hno).mpr hno⟩
  · rw [hebp]
    decide
  · rw [hebp]
    intro a b ha hb
    rcases hchain a ha with rfl | rfl
    all_goals
      rcases hchain b hb with rfl | rfl
      all_goals rfl

/-- The frame pointer is the address of the last word of memory, which is the
address of a word on the stack. -/
def endOfMemory : Bytes :=
  storeWord (storeWord (storeWord (fun _ => 0) (0x500FB4 + ebpAt) 0xFFFFFFFC) 0xFFFFFFFC 0xFC0039) 0xFC0039 0xFC1000

/-- The word at `0xFC0039` is on no chain of the parent, and the copy of it is
not the same. -/
theorem fork_spoils_copy : ¬∀ t frame stack task ustack m, ForkBlocks t frame stack ustack → task ≠ 0 →
    ¬(ustack ≤ wordAt m (frame + ebpAt) ∧ wordAt m (frame + ebpAt) < ustack + (t.userStackTop - t.userStackBase)) →
    ChainAligned t m (wordAt m (frame + ebpAt)) → ∀ fuel, t.userStackTop - t.userStackBase + 3 ≤ fuel →
      ∃ m' child, forkTask fuel m t frame stack task ustack = .ret (m', some child) ∧
        Forked t frame ustack m m' child := by
  intro hall
  have hebp : wordAt endOfMemory (0x500FB4 + ebpAt) = 0xFFFFFFFC := by decide
  have hword : wordAt endOfMemory 0xFFFFFFFC = 0xFC0039 := by decide
  have hover : Overruns pageStacks endOfMemory 0xFFFFFFFC := by
    refine ⟨by decide, ?_, ?_⟩
    · rw [hword]
      decide
    · rw [hword]
      decide
  have hfar : ¬(0x700000 ≤ wordAt endOfMemory (0x500FB4 + ebpAt) ∧ wordAt endOfMemory (0x500FB4 + ebpAt) <
      0x700000 + (pageStacks.userStackTop - pageStacks.userStackBase)) := by
    rw [hebp]
    decide
  have haligned : ChainAligned pageStacks endOfMemory (wordAt endOfMemory (0x500FB4 + ebpAt)) := by
    rw [hebp]
    intro a b ha
    exact absurd ha.1 (by decide)
  -- the word at `0xFC0039` points behind the last word of the stack
  have hchain (a : Nat) (ha : FrameChain pageStacks endOfMemory 0xFC0039 a) : a = 0xFC0039 := by
    obtain ⟨-, hchain⟩ := ha
    induction hchain with
    | start => rfl
    | @next a b _ hlink ih =>
        rw [ih, show wordAt endOfMemory 0xFC0039 = 0xFC1000 by decide] at hlink
        exact absurd (savedEbp_cell.mp hlink).2.1 (by decide)
  have haligned' :
      ChainAligned pageStacks endOfMemory (wordAt endOfMemory (wordAt endOfMemory (0x500FB4 + ebpAt))) := by
    rw [hebp, hword]
    intro a b ha hb
    rw [hchain a ha, hchain b hb]
  obtain ⟨m', child, hm', hforked⟩ := hall pageStacks 0x500FB4 0x600000 0x650000 0x700000 endOfMemory pageStacks_blocks
    (by decide) hfar haligned _ (Nat.le_refl _)
  obtain ⟨m'', child', hm'', hwalked, -⟩ := forkTask_spec pageStacks_blocks (show 0x650000 ≠ 0 by decide) hfar haligned
    (fun _ => haligned') (Nat.le_refl _)
  rw [hm'] at hm''
  cases hm''
  have hcopy := hforked.copy
  rw [hebp] at hwalked hcopy
  exact not_copy_of_overruns pageStacks_blocks.bounds.1 hover hwalked hcopy

end LiteBSD.Frames
