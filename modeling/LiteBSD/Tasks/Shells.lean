/-
# `LiteBSD.Tasks.Shells` — the heap of a shell outlives the shell

`create_user_task` takes 1 MiB for the program of a shell, and no function
gives it back: `task_exit` and `wait4` know the stacks, the snapshot and the
`task_t`, and the pointer to the heap goes with the latter.  The block is then
neither of a file nor of a task (`Stray`), and only a program that guesses its
address frees it, by `munmap`.

So a run without `munmap` has as many such blocks as it has made shells, and
`heap_used` is at least as much (`shells_charged`): the machine has memory for
fifteen shells, however few are alive at a time.
-/
import LiteBSD.Tasks.Children

namespace LiteBSD.Tasks

open Lib Files

/-- Does the step make a shell that has a heap? -/
def makesShell (x : State × TaskEvent × State) : Bool :=
  match x.2.1, x.2.2.kernel.tasks with
  | .spawn _, t :: l | .exit _ _, t :: l => l = x.1.kernel.tasks ∧ (x.2.2.body t).heapStart ≠ 0
  | _, _ => false

/-- The heaps of `n` shells, alive or not. -/
structure ShellHeaps (s : State) (n : Nat) (l : List Nat) : Prop where
  nodup : l.Nodup
  length : l.length = n
  stray : ∀ b ∈ l, ∃ m, Stray s b m ∧ m.len = 0x100000

namespace ShellHeaps

variable {s s' : State} {n : Nat} {l : List Nat}

theorem tidy (h : ShellHeaps s n l) (ht : Tidy s s') : ShellHeaps s' n l := by
  refine ⟨h.nodup, h.length, fun b hb => ?_⟩
  obtain ⟨m, hm, hlen⟩ := h.stray b hb
  exact ⟨m, ht.stray hm, hlen⟩

theorem cons (h : ShellHeaps s n l) (ht : Tidy s s') {b : Nat} {m : Buf} (hb : s.kernel.vfs.nextObj ≤ b)
    (hm : Stray s' b m) (hlen : m.len = 0x100000) : ShellHeaps s' (n + 1) (b :: l) := by
  have hnew : b ∉ l := by
    intro hold
    obtain ⟨m', hm', -⟩ := h.stray b hold
    exact absurd hm'.nodeless.below (Nat.not_lt.mpr hb)
  refine ⟨List.nodup_cons.mpr ⟨hnew, h.nodup⟩, by rw [List.length_cons, h.length], fun c hc => ?_⟩
  rcases List.mem_cons.mp hc with rfl | hc
  · exact ⟨m, hm, hlen⟩
  · exact (h.tidy ht).stray c hc

/-- A step leaves the heaps that there are, and a new shell has another. -/
theorem step (h : ShellHeaps s n l) {e : TaskEvent} (hs : Housed s) (hkinds : OneKinds s.kernel)
    (hstep : taskSystem.step s e s') (hkeep : keepsBlocks e = true) :
    ∃ l, ShellHeaps s' (n + if makesShell (s, e, s') = true then 1 else 0) l := by
  have htidy := Tidy.of_step hs hkinds hstep.1 hkeep s' hstep.2
  by_cases hmakes : makesShell (s, e, s') = true
  · rw [if_pos hmakes]
    have hfurnished : Furnished s s' := by
      cases e with
      | spawn stale => exact (createUserTask_tidy hs hkinds stale s' hstep.2).2
      | exit t stale => exact (sysExit_tidy hs hkinds (hstep.1 t rfl) stale s' hstep.2).2
      | _ => cases hmakes
    obtain ⟨t, htasks, hstart⟩ : ∃ t, s'.kernel.tasks = t :: s.kernel.tasks ∧ (s'.body t).heapStart ≠ 0 := by
      unfold makesShell at hmakes
      dsimp only at hmakes
      split at hmakes
      · rename_i t l htasks
        obtain ⟨rfl, hstart⟩ := of_decide_eq_true hmakes
        exact ⟨t, htasks, hstart⟩
      · rename_i t l htasks
        obtain ⟨rfl, hstart⟩ := of_decide_eq_true hmakes
        exact ⟨t, htasks, hstart⟩
      · cases hmakes
    obtain ⟨b, m, hb, hm, hlen⟩ := hfurnished t htasks hstart
    exact ⟨b :: l, h.cons htidy hb hm hlen⟩
  · rw [if_neg hmakes]
    exact ⟨l, h.tidy htidy⟩

/-- The heaps are charged for. -/
theorem charged (h : ShellHeaps s n l) (slack : Nat → Nat) :
    n * (headerSize + 0x100000) ≤ heapCharged slack s.kernel := by
  have hsub : l.toFinset ⊆ Finset.range s.kernel.vfs.nextObj := by
    intro b hb
    obtain ⟨m, hm, -⟩ := h.stray b (List.mem_toFinset.mp hb)
    exact Finset.mem_range.mpr hm.nodeless.below
  have hone : ∀ b ∈ l.toFinset, headerSize + 0x100000 ≤ heldAt slack s.kernel b := by
    intro b hb
    obtain ⟨m, hm, hlen⟩ := h.stray b (List.mem_toFinset.mp hb)
    have hblock : blockOf s.kernel b = some 0x100000 := by
      rw [blockOf, hm.nodeless.held, Option.map_some, hlen]
      rfl
    have halign : alignSize 0x100000 = 0x100000 := by decide
    rw [heldAt, charge, hblock]
    dsimp only
    omega
  calc n * (headerSize + 0x100000) = l.toFinset.card * (headerSize + 0x100000) := by
        rw [List.toFinset_card_of_nodup h.nodup, h.length]
    _ ≤ l.toFinset.sum (heldAt slack s.kernel) := Finset.card_nsmul_le_sum _ _ _ hone
    _ ≤ heapCharged slack s.kernel := Finset.sum_le_sum_of_subset hsub

end ShellHeaps

theorem pipelessTasks_trace {tr : List (State × TaskEvent × State)} {s : State} (h : pipelessTasks.Trace tr s) :
    pipelessTasks.Reach s := by
  induction h with
  | nil h => exact .init h
  | snoc _ hs ih => exact .step ih trivial hs

theorem shellHeaps_of_trace {tr : List (State × TaskEvent × State)} {s : State} (h : pipelessTasks.Trace tr s)
    (hkeep : ∀ x ∈ tr, keepsBlocks x.2.1 = true) : ∃ l, ShellHeaps s (tr.countP makesShell) l := by
  induction h with
  | nil h => exact ⟨[], List.nodup_nil, rfl, fun b hb => absurd hb List.not_mem_nil⟩
  | @snoc tr s s' e htr hs ih =>
      obtain ⟨he, hkeep⟩ := List.forall_mem_cons.mp hkeep
      obtain ⟨l, hl⟩ := ih hkeep
      obtain ⟨hhoused, hkinds⟩ := Housed.of_reach (pipelessTasks_trace htr)
      rw [List.countP_cons]
      exact hl.step hhoused hkinds hs he

/-- **Every shell costs a megabyte for good.**  In every run without `munmap`
`heap_used` is at least as much as the heaps of all shells that were ever made,
so in a heap of 16 MiB there are at most fifteen. -/
theorem shells_charged {tr : List (State × TaskEvent × State)} {s : State} (h : pipelessTasks.Trace tr s)
    (hkeep : ∀ x ∈ tr, keepsBlocks x.2.1 = true) (slack : Nat → Nat) :
    tr.countP makesShell * (headerSize + 0x100000) ≤ heapCharged slack s.kernel ∧
      (heapCharged slack s.kernel ≤ heapSize → tr.countP makesShell ≤ 15) := by
  obtain ⟨l, hl⟩ := shellHeaps_of_trace h hkeep
  have hcharged := hl.charged slack
  refine ⟨hcharged, fun hle => ?_⟩
  have hsize : heapSize < 16 * (headerSize + 0x100000) := by decide
  by_contra hmany
  have h16 := Nat.mul_le_mul_right (headerSize + 0x100000) (Nat.lt_of_not_le hmany)
  exact absurd (Nat.le_trans h16 (Nat.le_trans hcharged hle)) (Nat.not_le.mpr hsize)

/-- The first shell exits and another takes its place: both heaps are held. -/
theorem shells_of_restart : ∃ (tr : List (State × TaskEvent × State)) (s : State), pipelessTasks.Trace tr s ∧
    tr.countP makesShell = 2 ∧ 2 * (headerSize + 0x100000) ≤ heapCharged (fun _ => 0) s.kernel := by
  have hspawn : (createUserTask bareMachine fun _ => .null).any (fun s =>
      makesShell (bareMachine, .spawn fun _ => .null, s) && 3 ∈ s.kernel.tasks &&
        (sysExit s 3 fun _ => .null).any fun s' => makesShell (s, .exit 3 fun _ => .null, s')) = true := by
    decide +kernel
  obtain ⟨s, hs, hcheck⟩ := Exec.exists_of_any hspawn
  obtain ⟨hcheck, hexit⟩ := Bool.and_eq_true_iff.mp hcheck
  obtain ⟨hmade, ht⟩ := Bool.and_eq_true_iff.mp hcheck
  obtain ⟨s', hs', hmade'⟩ := Exec.exists_of_any hexit
  have htr : pipelessTasks.Trace [(s, .exit 3 fun _ => .null, s'), (bareMachine, .spawn fun _ => .null, s)] s' := by
    refine .snoc (.snoc (.nil ⟨quietKernel_boot, fun _ => rfl⟩) ⟨fun t ht => ?_, hs⟩) ⟨fun t h => ?_, hs'⟩
    · cases ht
    · cases h
      exact of_decide_eq_true ht
  have hcount : [(s, TaskEvent.exit 3 fun _ => .null, s'), (bareMachine, .spawn fun _ => .null, s)].countP makesShell =
      2 := by
    rw [List.countP_cons, List.countP_cons, List.countP_nil, if_pos hmade, if_pos hmade']
  refine ⟨_, s', htr, hcount, ?_⟩
  have hcharged := (shells_charged htr (fun x hx => ?_) fun _ => 0).1
  · rwa [hcount] at hcharged
  · simp only [List.mem_cons, List.not_mem_nil, or_false] at hx
    rcases hx with rfl | rfl
    · rfl
    · rfl

end LiteBSD.Tasks
