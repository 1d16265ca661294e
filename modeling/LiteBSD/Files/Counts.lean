/-
# `LiteBSD.Files.Counts` — the reference counts of open files

The holders of a file are the slots of the tasks on the ready queue, and
`ref_count` is to be their number (`Lib.Counted`).  A new file that gets a
slot, a slot that takes hold of a file or lets go of one, and tasks with empty
slots that come and go keep the counts exact, and the last release frees the
file and gives back what it was made for, once.

Three things break it, and nothing else does: a child is reaped that still
has descriptors (one that was killed did not run `task_exit`), a pipe does
not find two free slots and forgets its files, and a file is made in memory
that still names a socket.  `descriptors_exact_while_kept` is about all runs
without these.
-/
import LiteBSD.Files.Moves

namespace LiteBSD.Files

open Lib

/-- Every counter is the number of the slots, no slot points at a freed file,
and a file was freed and what it was made for given back, once, exactly if no
slot points at it any more. -/
structure DescriptorsExact (k : Kernel) : Prop where
  counted : ∀ f x, k.file f = some x → x.refCount = k.uses f
  live : ∀ t ∈ k.tasks, ∀ i f, k.fd (t, i) = some f → k.file f ≠ none
  released : ∀ f held, k.made f = some held →
    if k.uses f = 0 then k.file f = none ∧ k.released f = [held]
    else k.file f ≠ none ∧ k.released f = []

/-- A pipe finds two free slots, a child that is reaped has no descriptors
left, and memory for the file of a node or of the console holds `NULL` where
the file has its socket. -/
def DescriptorsKept (k : Kernel) : FdEvent → Prop
  | .pipe t _ _ => TwoFree k t
  | .wait t c => c ∈ k.tasks ∧ (k.owner c).zombie ∧ (k.owner c).ppid = (k.owner t).pid →
      ∀ i, k.fd (c, i) = none
  | .openPath _ _ _ _ stale => stale = .null
  | .spawn stale => ∀ i, stale i = .null
  | _ => True

/-- What is on record for an address. -/
def Recorded (x : Option File) (made : Option Held) (released : List Held) : Prop :=
  match x with
  | some x => made = x.held ∧ made ≠ none ∧ released = []
  | none => released = made.toList

structure CountInv (k : Kernel) : Prop where
  counted : Counted (slotsOf k.tasks) k.fd fun f => (k.file f).map File.refCount
  record : ∀ f, Recorded (k.file f) (k.made f) (k.released f)

/-! ## The moves -/

section Moves

variable {k k' : Kernel} {t c f : Nat} {i : Fin maxFds} {x : File} {held : Held}

/-- The counts do not look at the rest of a file. -/
theorem CountInv.congr (h : CountInv k) (htasks : k'.tasks = k.tasks) (hfd : k'.fd = k.fd)
    (hfile : ∀ f, (k'.file f).map File.core = (k.file f).map File.core) (hmade : k'.made = k.made)
    (hreleased : k'.released = k.released) : CountInv k' := by
  refine ⟨?_, fun f => ?_⟩
  · rw [htasks, hfd]
    intro f
    rw [← h.counted f]
    have hf := congrArg (Option.map Prod.fst) (hfile f)
    simpa only [Option.map_map, Function.comp_def, File.core] using hf
  · have hrec := h.record f
    have hf := hfile f
    rw [hmade, hreleased]
    revert hrec hf
    unfold Recorded File.core
    cases k.file f <;> cases k'.file f <;> simp +contextual

/-- The counter of a file is the number of its slots. -/
theorem CountInv.refCount_eq (h : CountInv k) (hx : k.file f = some x) :
    x.refCount = holders (slotsOf k.tasks) k.fd f := by
  have hcount : (k.file f).map File.refCount = counter (holders (slotsOf k.tasks) k.fd f) :=
    h.counted f
  rw [hx, Option.map_some] at hcount
  exact (counter_eq_some hcount.symm).1

/-- What is on record where nothing was made. -/
theorem CountInv.absent (h : CountInv k) (hf : Fresh k f) : k.released f = [] := by
  have hrec := h.record f
  rw [hf.file, hf.made] at hrec
  exact hrec

/-- A store besides the one into `f`. -/
theorem recorded_update (f : Nat) {file : Nat → Option File} {made : Nat → Option Held}
    {released : Nat → List Held} (h : ∀ g, Recorded (file g) (made g) (released g))
    {p : Option File} {q : Option Held} {r : List Held} (hf : Recorded p q r) (g : Nat) :
    Recorded (Function.update file f p g) (Function.update made f q g)
      (Function.update released f r g) := by
  by_cases hg : g = f
  · rw [hg, Function.update_self, Function.update_self, Function.update_self]
    exact hf
  · rw [Function.update_of_ne hg, Function.update_of_ne hg, Function.update_of_ne hg]
    exact h g

/-- An empty slot takes hold of a file. -/
theorem CountInv.hold (h : CountInv k) (hnodup : k.tasks.Nodup) (ht : t ∈ k.tasks)
    (hfd : k.fd (t, i) = none) (hx : k.file f = some x) :
    CountInv ((k.setFd t i (some f)).setFile f { x with refCount := x.refCount + 1 }) := by
  have hrec := h.record f
  rw [hx] at hrec
  refine ⟨?_, fun g => ?_⟩
  · have hret := h.counted.retain (nodup_slotsOf hnodup) (mem_slotsOf.mpr ht) hfd (h.refCount_eq hx)
    rw [setFile_file, counts_update]
    exact hret
  · have hg := recorded_update f h.record (p := some { x with refCount := x.refCount + 1 })
      hrec g
    rwa [Function.update_eq_self, Function.update_eq_self] at hg

/-- A new file gets a slot. -/
theorem CountInv.make (h : CountInv k) (hnodup : k.tasks.Nodup) (ht : t ∈ k.tasks)
    (hfd : k.fd (t, i) = none) (hf : Fresh k f) (hone : x.refCount = 1)
    (hheld : x.held = some held) : CountInv ((k.putFile f held x).setFd t i (some f)) := by
  refine ⟨?_, fun g => ?_⟩
  · have hzero : holders (slotsOf k.tasks) k.fd f = 0 := by
      refine h.counted.not_held ?_
      rw [hf.file]
      rfl
    have hret := h.counted.retain (nodup_slotsOf hnodup) (mem_slotsOf.mpr ht) hfd (o := f)
      (k := 0) (by rw [hzero]; rfl)
    have hfile : ((k.putFile f held x).setFd t i (some f)).file = Function.update k.file f (some x) :=
      rfl
    rw [hfile, counts_update, Option.map_some, hone]
    exact hret
  · have hnew : Recorded (some x) (some held) (k.released f) := by
      rw [h.absent hf]
      exact ⟨hheld.symm, nofun, rfl⟩
    have hg := recorded_update f h.record hnew g
    rwa [Function.update_eq_self] at hg

/-- A new file is freed before it got a slot, and what it was made for is
given back. -/
theorem CountInv.discard (h : CountInv k) (hf : Fresh k f) :
    CountInv ((k.putFile f held x).freeFile f held) := by
  have hfile : ((k.putFile f held x).freeFile f held).file = k.file := by
    rw [freeFile_file, putFile_file, Function.update_idem, ← hf.file, Function.update_eq_self]
  refine ⟨?_, fun g => ?_⟩
  · rw [hfile]
    exact h.counted
  · have hgone : Recorded none (some held) (k.released f ++ [held]) := by
      rw [h.absent hf]
      rfl
    have hg := recorded_update f h.record hgone g
    rwa [← hf.file, Function.update_eq_self, ← hfile] at hg

/-- A new task has nothing open. -/
theorem CountInv.enter (h : CountInv k) (hc : c ∉ k.tasks) (o : Owner) :
    CountInv (addOwner k c o) :=
  ⟨h.counted.congr fun f => holders_addOwner hc o f, h.record⟩

/-- A slot lets go of its file; the last one frees it. -/
theorem CountInv.drop (h : CountInv k) (hnodup : k.tasks.Nodup) (ht : t ∈ k.tasks)
    (hk : Dropped k t i k') : CountInv k' := by
  have hslots := nodup_slotsOf hnodup
  have hslot : (t, i) ∈ slotsOf k.tasks := mem_slotsOf.mpr ht
  cases hk with
  | empty => exact h
  | @more f x hf hx hmore =>
      have hcount := h.counted.release hslots hslot hf (k := x.refCount) (by rw [hx]; rfl)
      rw [if_neg hmore] at hcount
      have hrec := h.record f
      rw [hx] at hrec
      refine ⟨?_, fun g => ?_⟩
      · show Counted (slotsOf k.tasks) (Function.update k.fd (t, i) none) fun g =>
          (Function.update k.file f (some { x with refCount := x.refCount - 1 }) g).map File.refCount
        rw [counts_update]
        exact hcount
      · have hg := recorded_update f h.record (p := some { x with refCount := x.refCount - 1 })
          hrec g
        rwa [Function.update_eq_self, Function.update_eq_self] at hg
  | @last f x k₁ hf hx hlast hk₁ =>
      have hcount := h.counted.release hslots hslot hf (k := x.refCount) (by rw [hx]; rfl)
      rw [if_pos hlast] at hcount
      have hrec := h.record f
      rw [hx] at hrec
      obtain ⟨hmade, _, hrel⟩ := hrec
      obtain ⟨held, hheld, hreleased⟩ := hk₁.released
      refine ⟨?_, fun g => ?_⟩
      · show Counted (slotsOf k₁.tasks) (Function.update k₁.fd (t, i) none) fun g =>
          (k₁.file g).map File.refCount
        rw [hk₁.tasks, hk₁.fd, hk₁.file, counts_update]
        exact hcount
      · have hgone : Recorded none (k.made f) (k.released f ++ [held]) := by
          rw [hrel, hmade, hheld]
          rfl
        have hg := recorded_update f h.record hgone g
        rw [Function.update_eq_self] at hg
        show Recorded (k₁.file g) (k₁.made g) (k₁.released g)
        rwa [hk₁.file, hk₁.made, hreleased]

/-- Every move that the condition leaves keeps the counts. -/
theorem CountInv.step {e : FdEvent} {s s' : Kernel} {m : Move} (h : CountInv s) (hbase : Base s)
    (hkept : DescriptorsKept k e) (ha : Allowed k e s m) (hs : MoveStep s m s') : CountInv s' := by
  cases hs with
  | same htasks hfd hfile _ hmade hreleased => exact h.congr htasks hfd hfile hmade hreleased
  | vfs _ => exact ⟨h.counted, h.record⟩
  | hold ht hfd hx => exact h.hold hbase.nodup ht hfd hx
  | make ht hfd hf hone =>
      refine h.make hbase.nodup ht hfd hf hone (ha.2 ?_)
      cases e with
      | openPath => exact hkept
      | spawn => exact hkept
      | _ => trivial
  | discard hf => exact h.discard hf
  | forget _ =>
      obtain ⟨_, t, stale, stale', rfl, hno⟩ := ha
      exact absurd hkept hno
  | drop ht hk => exact h.drop hbase.nodup ht (releaseFd_dropped _ hk)
  | enter hc _ => exact h.enter hc _
  | leave hc =>
      obtain ⟨rfl, t, rfl, hfound⟩ := ha
      exact ⟨h.counted.congr fun f => holders_erase_task hc (hkept hfound) f, h.record⟩

theorem CountInv.boot (h : KernelBoot k) : CountInv k := by
  refine ⟨fun f => ?_, fun f => ?_⟩
  · show (k.file f).map File.refCount = _
    rw [h.file f, h.tasks]
    rfl
  · rw [h.file f, h.made f, h.released f]
    rfl

theorem CountInv.exact (h : CountInv k) : DescriptorsExact k := by
  refine ⟨fun f x hx => h.refCount_eq hx, fun t ht i f hf hnone => ?_, fun f held hmade => ?_⟩
  · have hcount := (h.counted.of_held (mem_slotsOf.mpr ht) hf).1
    rw [hnone] at hcount
    cases hcount
  · have hcount : (k.file f).map File.refCount = counter (k.uses f) := h.counted f
    have hrec := h.record f
    split
    · rename_i hzero
      rw [hzero, counter_zero, Option.map_eq_none_iff] at hcount
      rw [hcount, hmade] at hrec
      exact ⟨hcount, hrec⟩
    · rename_i hpos
      cases hx : k.file f with
      | none =>
          rw [hx] at hcount
          exact absurd (counter_eq_none hcount.symm) hpos
      | some x =>
          rw [hx] at hrec
          exact ⟨nofun, hrec.2.2⟩

end Moves

/-- In every run in which pipes find two free slots, children that are reaped
have no descriptors left and new files find no stale socket in memory, the
counts of all open files are exact, and every file is freed, with what it was
made for, exactly when its last slot goes. -/
theorem descriptors_exact_while_kept {k : Kernel} (h : fdSystem.ReachVia DescriptorsKept k) :
    DescriptorsExact k := by
  refine CountInv.exact (reachVia_moves (fun _ => CountInv.boot) ?_ h).2
  intro k e s m s' hkept hbase hi ha hs
  exact hi.step hbase hkept ha hs

/-- A task duplicates a descriptor, forks, and its child exits. -/
theorem descriptors_after_fork : ∃ k, fdSystem.ReachVia DescriptorsKept k ∧ k.tasks = [6, 1] ∧
    k.uses 2 = 2 ∧ DescriptorsExact k := by
  obtain ⟨k, hrun, htasks, huses⟩ : ∃ k, runAll quietKernel
      [.spawn fun _ => .null, .dup 1 0, .fork 1, .exit 6] = .ret k ∧ k.tasks = [6, 1] ∧
      k.uses 2 = 2 := ⟨_, rfl, rfl, by decide⟩
  have hreach : fdSystem.ReachVia DescriptorsKept k := by
    refine reach_runAll (.init quietKernel_boot) ?_ hrun
    simp [DescriptorsKept]
  exact ⟨k, hreach, htasks, huses, descriptors_exact_while_kept hreach⟩

/-- With one slot left, a pipe releases its reading end and forgets the
writing end: the file counts one descriptor and has none. -/
theorem pipe_forgets_end : ¬∀ k, fdSystem.Reach k → DescriptorsExact k := by
  intro hall
  obtain ⟨k, hrun, hcount, huses⟩ : ∃ k, runAll quietKernel
      (.spawn (fun _ => .null) :: List.replicate 12 (.dup 1 0) ++ [.pipe 1 .null .null]) = .ret k ∧
      (k.file 8).map File.refCount = some 1 ∧ k.uses 8 = 0 := ⟨_, rfl, rfl, by decide⟩
  have hexact := hall k (reach_runAll (.init quietKernel_boot) (fun _ _ _ => trivial) hrun)
  obtain ⟨x, hx, hone⟩ := Option.map_eq_some_iff.mp hcount
  have hzero := hexact.counted 8 x hx
  rw [hone, huses] at hzero
  cases hzero

end LiteBSD.Files
