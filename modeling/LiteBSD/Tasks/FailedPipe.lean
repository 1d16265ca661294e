/-
# `LiteBSD.Tasks.FailedPipe` — what `sys_pipe` leaves behind when it returns -1

`sys_pipe` takes four blocks, for the pipe, its ring and two files, and then
two descriptors.  What it does when it cannot go on:

| what is missing | what it gives back |
| :-- | :-- |
| a block | the blocks it has |
| both descriptors | nothing |
| the second descriptor | the first one, with the file of the read end |

In the last case `release_fd` counts the read end out, but the write end is
still counted, by the file that never got a descriptor, so the pipe stays.
The slots of the task are as before in every case (`sysPipe_failed`); the heap
is, exactly when all four blocks were not to be had, or two slots were
(`failed_pipe_restores_iff`).  A block counts from the moment it is taken, so
that the heap is as before for want of a block only because each `kfree` of
the clean-up is there (`sysPipe_blocks`).
-/
import LiteBSD.Files.Moves
import LiteBSD.Vfs.Transparent
import LiteBSD.Tasks.Charges

namespace LiteBSD.Tasks

open Lib Files

/-- `sys_pipe` with its test of the pointer it is to store to. -/
def sysPipeTo (k : Kernel) (t : Nat) (valid : Bool) (stale stale' : SockPtr) : Exec (Kernel × Int) :=
  if valid then sysPipe k t stale stale' else .ret (k, -1)

/-- A pipe was made and nobody holds it. -/
structure PipeLost (k k' : Kernel) : Prop where
  vfs : Untouched k.vfs k'.vfs
  fd : k'.fd = k.fd
  file : ∀ f < k.vfs.nextObj, k'.file f = k.file f
  pipe : ∀ p < k.vfs.nextObj, k'.pipe p = k.pipe p
  block : k'.block = k.block
  lost : k.vfs.nextObj < k'.vfs.nextObj ∧ k'.pipe k.vfs.nextObj ≠ none

section Failed

variable {k k' : Kernel} {t : Nat} {stale stale' : SockPtr}

/-- The kernel with `n` addresses fewer in supply. -/
def supplied (k : Kernel) (n : Nat) : Kernel := drawnTo k n k.block

theorem untouched_supplied (k : Kernel) (n : Nat) : Untouched k.vfs (supplied k n).vfs := untouched_drawnTo k n k.block

/-- The kernel once the pipe and both files are made, without a slot. -/
def madePipe (k : Kernel) (stale stale' : SockPtr) : Kernel :=
  let n := k.vfs.nextObj
  let k := supplied k 4
  let k := { k with pipe := Function.update k.pipe n (some ⟨⟨fun _ => 0, 0, 0, 0⟩, 1, 1, false⟩) }
  let k := k.putFile (n + 2) (.readEnd n) (pipeFile n 0 stale)
  k.putFile (n + 3) (.writeEnd n) (pipeFile n 1 stale')

/-- The pipe is there for as long as its write end is. -/
theorem madePipe_lost (hfile : ∀ f, f = k.vfs.nextObj + 2 ∨ f = k.vfs.nextObj + 3 ∨
      k'.file f = (madePipe k stale stale').file f)
    (hpipe : ∀ p, p ≠ k.vfs.nextObj → k'.pipe p = (madePipe k stale stale').pipe p)
    (hlost : k'.pipe k.vfs.nextObj ≠ none) (hvfs : k'.vfs = (madePipe k stale stale').vfs) (hfd : k'.fd = k.fd)
    (hblock : k'.block = k.block) : PipeLost k k' := by
  refine ⟨by rw [hvfs]; exact untouched_supplied k 4, hfd, fun f hf => ?_, fun p hp => ?_, hblock, ?_, hlost⟩
  · have hsame : (madePipe k stale stale').file f = k.file f := by
      have hr : f ≠ k.vfs.nextObj + 2 := by omega
      have hw : f ≠ k.vfs.nextObj + 3 := by omega
      exact (Function.update_of_ne hw _ _).trans (Function.update_of_ne hr _ _)
    rcases hfile f with rfl | rfl | h
    · omega
    · omega
    · exact h.trans hsame
  · exact (hpipe p (Nat.ne_of_lt hp)).trans (Function.update_of_ne (Nat.ne_of_lt hp) _ _)
  · rw [hvfs]
    exact Nat.lt_add_of_pos_right (by decide)

theorem allocFd_none {f : Nat} (h : freeFd k t = none) : allocFd k t f = (k, none) := by
  rw [allocFd, h]

theorem allocFd_some {f : Nat} {i : Fin maxFds} (h : freeFd k t = some i) :
    allocFd k t f = (k.setFd t i (some f), some i) := by
  rw [allocFd, h]

/-- The read end goes with its slot, and is counted out of the pipe. -/
theorem releaseFd_readEnd {i : Fin maxFds} :
    releaseFd ((madePipe k stale stale').setFd t i (some (k.vfs.nextObj + 2))) t i =
      .ret (({ (madePipe k stale stale').setFd t i (some (k.vfs.nextObj + 2)) with
        pipe := Function.update (madePipe k stale stale').pipe k.vfs.nextObj
          (some ⟨⟨fun _ => 0, 0, 0, 0⟩, 0, 1, false⟩) }.freeFile (k.vfs.nextObj + 2)
            (.readEnd k.vfs.nextObj)).setFd t i none) := by
  have hslot : ((madePipe k stale stale').setFd t i (some (k.vfs.nextObj + 2))).fd (t, i) =
      some (k.vfs.nextObj + 2) := Function.update_self _ _ _
  have hfile : (madePipe k stale stale').file (k.vfs.nextObj + 2) = some (pipeFile k.vfs.nextObj 0 stale) := by
    refine (Function.update_of_ne (Nat.ne_of_lt (Nat.lt_succ_self _)) _ _).trans ?_
    exact Function.update_self _ _ _
  have hpipe : (madePipe k stale stale').pipe k.vfs.nextObj = some ⟨⟨fun _ => 0, 0, 0, 0⟩, 1, 1, false⟩ :=
    Function.update_self _ _ _
  have hload : ((madePipe k stale stale').setFd t i (some (k.vfs.nextObj + 2))).load (k.vfs.nextObj + 2) =
      .ret (pipeFile k.vfs.nextObj 0 stale) := load_eq_ret.mpr hfile
  unfold releaseFd
  rw [hslot]
  dsimp only
  have hlast : (pipeFile k.vfs.nextObj 0 stale).refCount - 1 ≤ 0 := Int.le_refl 0
  rw [hload, Exec.ret_bind, dropFile, if_pos hlast, closeFile]
  dsimp only [pipeFile]
  have hpipe' : ((madePipe k stale stale').setFd t i (some (k.vfs.nextObj + 2))).pipe k.vfs.nextObj =
      some ⟨⟨fun _ => 0, 0, 0, 0⟩, 1, 1, false⟩ := hpipe
  rw [hpipe']
  rfl

/-- Without two free slots, `sys_pipe` loses the pipe; with two, it does not
fail. -/
theorem openPipe_failed (h : openPipe (supplied k 4) t k.vfs.nextObj (k.vfs.nextObj + 2) (k.vfs.nextObj + 3) stale
    stale' = .ret (k', -1)) : ¬TwoFree k t ∧ PipeLost k k' := by
  have hmade : (({ supplied k 4 with
      pipe := Function.update (supplied k 4).pipe k.vfs.nextObj (some ⟨⟨fun _ => 0, 0, 0, 0⟩, 1, 1, false⟩) }
        : Kernel).putFile (k.vfs.nextObj + 2) (.readEnd k.vfs.nextObj) (pipeFile k.vfs.nextObj 0 stale)).putFile
      (k.vfs.nextObj + 3) (.writeEnd k.vfs.nextObj) (pipeFile k.vfs.nextObj 1 stale') = madePipe k stale stale' := rfl
  unfold openPipe at h
  dsimp only at h
  rw [hmade] at h
  cases hi : freeFd (madePipe k stale stale') t with
  | none =>
      rw [allocFd_none hi, allocFd_none hi] at h
      cases h
      refine ⟨?_, madePipe_lost (fun f => .inr (.inr rfl)) (fun _ _ => rfl) ?_ rfl rfl rfl⟩
      · rintro ⟨i, -, -, hlow, -, hfree, -⟩
        obtain ⟨j, hj⟩ := @freeFd_isSome (madePipe k stale stale') t i hlow hfree
        rw [hi] at hj
        cases hj
      · intro hnone
        have hsome : (madePipe k stale stale').pipe k.vfs.nextObj = some _ := Function.update_self _ _ _
        rw [hnone] at hsome
        cases hsome
  | some i =>
      have hslot : k.fd (t, i) = none := freeFd_none hi
      rw [allocFd_some hi] at h
      cases hj : freeFd ((madePipe k stale stale').setFd t i (some (k.vfs.nextObj + 2))) t with
      | some j =>
          rw [allocFd_some hj] at h
          cases h
      | none =>
          rw [allocFd_none hj] at h
          dsimp only at h
          rw [releaseFd_readEnd, Exec.ret_bind] at h
          cases h
          refine ⟨?_, @madePipe_lost k _ stale stale' (fun f => ?_) (fun p hp => ?_) ?_ rfl ?_ ?_⟩
          · -- one of two free slots is not the one that was taken
            rintro ⟨a, b, hab, hlow, hlow', hfree, hfree'⟩
            have htaken : ∀ c : Fin maxFds, 3 ≤ c.val → k.fd (t, c) = none → c = i := by
              intro c hlow hfree
              by_contra hc
              have hother : ((madePipe k stale stale').setFd t i (some (k.vfs.nextObj + 2))).fd (t, c) = none :=
                (Function.update_of_ne (fun he => hc (congrArg Prod.snd he)) _ _).trans hfree
              obtain ⟨j, hj'⟩ := freeFd_isSome hlow hother
              rw [hj] at hj'
              cases hj'
            exact hab ((htaken a hlow hfree).trans (htaken b hlow' hfree').symm)
          · by_cases hf : f = k.vfs.nextObj + 2
            · exact .inl hf
            · exact .inr (.inr (Function.update_of_ne hf _ _))
          · exact Function.update_of_ne hp _ _
          · intro hnone
            have hsome := Function.update_self k.vfs.nextObj
              (some (⟨⟨fun _ => 0, 0, 0, 0⟩, 0, 1, false⟩ : Pipe)) (madePipe k stale stale').pipe
            rw [show Function.update (madePipe k stale stale').pipe k.vfs.nextObj _ k.vfs.nextObj = none from hnone]
              at hsome
            cases hsome
          · funext s
            by_cases hs : s = (t, i)
            · rw [hs, hslot]
              exact Function.update_self _ _ _
            · exact (Function.update_of_ne hs _ _).trans (Function.update_of_ne hs _ _)
          · dsimp only [Kernel.setFd, Kernel.freeFile]
            rfl

/-- `sys_pipe` where it returns -1: all that it has taken it gives back, or a
pipe is lost. -/
theorem sysPipe_failed (hk : Steady k k) (h : sysPipe k t stale stale' = .ret (k', -1)) :
    (¬FourBlocks k ∧ ∃ n, k' = supplied k n) ∨ (FourBlocks k ∧ ¬TwoFree k t ∧ PipeLost k k') := by
  obtain ⟨block, hbut, hrest⟩ := sysPipe_blocks h
  have hfresh : ∀ b, k.vfs.nextObj ≤ b → k.block b = none := by
    intro b hb
    by_contra hne
    exact absurd (hk.block b hne) (Nat.not_lt.mpr hb)
  obtain rfl := hbut.all hfresh
  rcases hrest with ⟨hfour, -, hsame⟩ | ⟨hfour, hopen⟩
  · exact .inl ⟨hfour, hsame⟩
  · exact .inr ⟨hfour, openPipe_failed hopen⟩

theorem PipeLost.charged (hk : Steady k k) (h : PipeLost k k') (slack : Nat → Nat) :
    heapCharged slack k < heapCharged slack k' := by
  have hold : ∀ b < k.vfs.nextObj, heldAt slack k b = heldAt slack k' b := by
    intro b hb
    have hblock : blockOf k' b = blockOf k b := by
      unfold blockOf
      rw [h.vfs.buf, h.vfs.cell, h.vfs.node, h.file b hb, h.pipe b hb]
    exact (heldAt_congr hblock (congrArg Option.isSome (h.pipe b hb)) (congrFun h.block b)).symm
  refine heapCharged_lt hk (fun b hb => Nat.le_of_eq (hold b hb)) h.vfs.supply h.lost.1 (Nat.le_refl _) ?_
  obtain ⟨q, hq⟩ := Option.ne_none_iff_exists'.mp h.lost.2
  simp [blockOf, hq]

end Failed

/-- Where `sys_pipe` returns -1 it leaves the descriptors of the task and the
heap as they were exactly when it was not for want of descriptors: with two
free slots, or too little memory for the pipe itself. -/
theorem failed_pipe_restores_iff {k k' : Kernel} (hreach : pipelessSystem.Reach k) {t : Nat} {valid : Bool}
    {stale stale' : SockPtr} (h : sysPipeTo k t valid stale stale' = .ret (k', -1)) (slack : Nat → Nat) :
    (k'.fd = k.fd ∧ heapCharged slack k' = heapCharged slack k) ↔
      (valid = true → TwoFree k t ∨ ¬FourBlocks k) := by
  have hk : Steady k k := .of_reach hreach
  cases valid with
  | false =>
      cases h
      exact ⟨fun _ => nofun, fun _ => ⟨rfl, rfl⟩⟩
  | true =>
      rcases sysPipe_failed hk h with ⟨hfour, n, rfl⟩ | ⟨hfour, htwo, hlost⟩
      · have hsame : heapCharged slack (supplied k n) = heapCharged slack k :=
          heapCharged_same hk (Nat.le_add_right _ _) fun _ => rfl
        exact ⟨fun _ _ => .inr hfour, fun _ => ⟨rfl, hsame⟩⟩
      · constructor
        · rintro ⟨-, hsame⟩
          exact absurd hsame (Nat.ne_of_gt (hlost.charged hk slack))
        · intro hcond
          exact ((hcond rfl).elim htwo fun hno => hno hfour).elim

/-- A kernel at boot whose allocation number `n` fails. -/
def tightKernel (n : Nat) : Kernel :=
  { Files.quietKernel with vfs := emptyVfs ⟨fun i => if i = n then .null else .block, fun _ _ => 0⟩ none }

/-- There is no memory for the ring, and the block for the pipe is given back;
there is none for the second file, and the other three are. -/
theorem pipe_without_block :
    (∃ k', sysPipeTo (tightKernel 2) 0 true .null .null = .ret (k', -1) ∧ k'.fd = (tightKernel 2).fd ∧
      heapCharged (fun _ => 0) k' = heapCharged (fun _ => 0) (tightKernel 2)) ∧
    ∃ k', sysPipeTo (tightKernel 4) 0 true .null .null = .ret (k', -1) ∧ k'.fd = (tightKernel 4).fd ∧
      heapCharged (fun _ => 0) k' = heapCharged (fun _ => 0) (tightKernel 4) := by
  have hreach : ∀ n, pipelessSystem.Reach (tightKernel n) := fun n =>
    .init ⟨⟨rfl, fun _ => rfl, fun _ => rfl, fun _ => rfl, fun _ => rfl, rfl, fun _ => ⟨rfl, rfl, rfl⟩, rfl, rfl⟩,
      fun _ => rfl⟩
  obtain ⟨k₂, hring⟩ : ∃ k', sysPipeTo (tightKernel 2) 0 true .null .null = .ret (k', -1) := ⟨_, rfl⟩
  obtain ⟨k₄, hfile⟩ : ∃ k', sysPipeTo (tightKernel 4) 0 true .null .null = .ret (k', -1) := ⟨_, rfl⟩
  have hfour₂ : ¬FourBlocks (tightKernel 2) := fun h => absurd (h 1 (by decide)) (by decide)
  have hfour₄ : ¬FourBlocks (tightKernel 4) := fun h => absurd (h 3 (by decide)) (by decide)
  exact ⟨⟨k₂, hring, (failed_pipe_restores_iff (hreach 2) hring fun _ => 0).mpr fun _ => .inr hfour₂⟩,
    ⟨k₄, hfile, (failed_pipe_restores_iff (hreach 4) hfile fun _ => 0).mpr fun _ => .inr hfour₄⟩⟩

/-- A task whose descriptor 0 is duplicated until one slot is left. -/
def oneSlotLeft : List FdEvent :=
  .spawn (fun _ => .null) :: List.replicate 12 (.dup 1 0)

theorem pipe_into_one_slot : ∃ k k', pipelessSystem.Reach k ∧ sysPipeTo k 1 true .null .null = .ret (k', -1) ∧
    heapCharged (fun _ => 0) k' = heapCharged (fun _ => 0) k + (12 + 32) + (12 + 4096) + (12 + 28) := by
  have hrun : ∃ k, runAll Files.quietKernel oneSlotLeft = .ret k ∧ ∃ k',
      sysPipeTo k 1 true .null .null = .ret (k', -1) ∧
        heapCharged (fun _ => 0) k' = heapCharged (fun _ => 0) k + (12 + 32) + (12 + 4096) + (12 + 28) :=
    ⟨_, rfl, _, rfl, by decide⟩
  obtain ⟨k, hk, k', hpipe, hheap⟩ := hrun
  exact ⟨k, k', pipeless_runAll hk, hpipe, hheap⟩

end LiteBSD.Tasks
