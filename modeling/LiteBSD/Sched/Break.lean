/-
# `LiteBSD.Sched.Break` — one heap, one break for every task

`fork_task` gives the child the three heap words of its parent: both go on
in the SAME window, but each with a break of its own.  `sys_brk` stores into
the current task only, and neither `task_exit` nor `wait4` hands a break
back.

So a parent that is resumed knows what was granted up to its own break and
nothing of what its child was granted.  Between a fork and the exit of the
child the break of either is the last address in the window that IT asked
for (`heapOf_run`), which gives the exact condition on the calls.

The machine of `Steps` is kept as it is; beside it stand the heap words of
every `task_t`, by its address.  `sys_execve_impl` does not touch them.
-/
import LiteBSD.Sched.Runner
import Mathlib.Logic.Function.Basic

namespace LiteBSD

open Lib

/-- `heap_start`, `heap_brk` and `heap_end` of a `task_t` -/
structure UserHeap where
  heapStart : Nat
  heapBrk : Nat
  heapEnd : Nat
deriving DecidableEq, Repr

/-- `sys_brk` of a task: its heap after it, and the result. -/
def sysBrk (task : UserHeap) (addr : Nat) : UserHeap × Int :=
  if addr = 0 then (task, int32 task.heapBrk)
  else if addr < task.heapStart ∨ addr > task.heapEnd then (task, int32 task.heapBrk)
  else ({ task with heapBrk := addr }, int32 addr)

/-- The heap words that `create_user_task` stores. -/
def createHeap (userHeap : Nat) : UserHeap := ⟨userHeap, userHeap, u32 (userHeap + 0x100000)⟩

/-- The heap words that `fork_task` stores. -/
def forkHeap (currentTask : UserHeap) : UserHeap :=
  ⟨currentTask.heapStart, currentTask.heapBrk, currentTask.heapEnd⟩

/-! ## The machine with its heaps -/

structure BreakMachine where
  machine : Machine
  heapOf : Nat → UserHeap

/-- `sys_brk`, or any other event, with the block that `kmalloc` returns for
the heap of a new shell. -/
inductive BreakEvent where
  | brk (addr : Nat)
  | other (event : Event) (userHeap : Nat)

structure BreakTrap where
  event : BreakEvent
  eip : Nat
  eax : Nat

/-- Does the event end in `respawn_user_shell`? -/
def respawns (s : Sched) : Event → Bool
  | .call (.exit _) => (s.currentTask.map fun t => t.ppid).getD 1 = 0
  | .fault => s.currentTask.any fun t => t.ppid = 0
  | _ => false

/-- The heap words of the task that an event makes. -/
def newHeap (s : Sched) (heapOf : Nat → UserHeap) (userHeap : Nat) : Event → Option UserHeap
  | .call .fork => s.currentTask.bind fun cur =>
      if s.tss ≠ cur.stackBase then none else some (forkHeap (heapOf cur.self))
  | e => if respawns s e then some (createHeap userHeap) else none

/-- The heap words after an event: a new task lies behind its kernel stack,
at `nextObj + 1`. -/
def heapsAfter (s : Sched) (heapOf : Nat → UserHeap) (userHeap : Nat) (e : Event) : Nat → UserHeap :=
  match newHeap s heapOf userHeap e with
  | some heap => Function.update heapOf (s.nextObj + 1) heap
  | none => heapOf

def BreakStep (m : BreakMachine) (t : BreakTrap) (m' : BreakMachine) : Prop :=
  match t.event with
  | .brk addr => ∃ c, m.machine.sched.current = some c ∧
      MachineStep m.machine ⟨.call (.other (sysBrk (m.heapOf c) addr).2), t.eip, t.eax⟩ m'.machine ∧
      m'.heapOf = Function.update m.heapOf c (sysBrk (m.heapOf c) addr).1
  | .other e userHeap => MachineStep m.machine ⟨e, t.eip, t.eax⟩ m'.machine ∧
      m'.heapOf = heapsAfter m.machine.sched m.heapOf userHeap e

def breakSystem : System BreakMachine BreakTrap where
  init m := MachineBoot m.machine ∧
    ∃ userHeap, ∀ t ∈ m.machine.sched.ring, m.heapOf t.self = createHeap userHeap
  step := BreakStep

/-- A step of a run: source, label and target. -/
abbrev BreakTaken := BreakMachine × BreakTrap × BreakMachine

/-! ## Addresses come from the supply

No well-formedness is assumed here: this holds also where pids have come
round. -/

structure Supplied (s : Sched) : Prop where
  ring : ∀ t ∈ s.ring, t.self < s.nextObj
  current : ∀ c, s.current = some c → c < s.nextObj

/-- `s'` is a later state of the supply of `s`. -/
def SuppliedAfter (s s' : Sched) : Prop := Supplied s' ∧ s.nextObj ≤ s'.nextObj

section Supply

variable {s s' : Sched}

theorem Supplied.refl (h : Supplied s) : SuppliedAfter s s := ⟨h, Nat.le_refl _⟩

theorem SuppliedAfter.trans {s₁ s₂ s₃ : Sched} (h : SuppliedAfter s₁ s₂) (h' : SuppliedAfter s₂ s₃) :
    SuppliedAfter s₁ s₃ := ⟨h'.1, Nat.le_trans h.2 h'.2⟩

/-- A ring of tasks that were there. -/
theorem Supplied.of_ring (h : Supplied s) {ring : List Task} (hr : ∀ t ∈ ring, ∃ u ∈ s.ring, t.self = u.self) :
    SuppliedAfter s { s with ring := ring } := by
  refine ⟨⟨fun t ht => ?_, h.current⟩, Nat.le_refl _⟩
  obtain ⟨u, hu, hself⟩ := hr t ht
  rw [hself]
  exact h.ring u hu

theorem Supplied.setTask (h : Supplied s) (self : Nat) {f : Task → Task} (hf : ∀ t, (f t).self = t.self) :
    SuppliedAfter s (s.setTask self f) := by
  refine h.of_ring fun t ht => ?_
  obtain ⟨u, hu, rfl⟩ := List.mem_map.mp ht
  refine ⟨u, hu, ?_⟩
  split
  · exact hf u
  · rfl

/-- A task at the address that is handed out joins the ring. -/
theorem Supplied.addTask (h : Supplied s) {task : Task} (hself : task.self = s.nextObj + 1) (pid : Nat) :
    SuppliedAfter s (addTask { s with nextPid := pid, nextObj := s.nextObj + 2 } task) := by
  refine ⟨⟨fun t ht => ?_, fun c hc => Nat.lt_add_right 2 (h.current c hc)⟩, Nat.le_add_right _ 2⟩
  rcases List.mem_append.mp ht with ht | ht
  · exact Nat.lt_add_right 2 (h.ring t ht)
  · rw [List.mem_singleton.mp ht, hself]
    exact Nat.lt_succ_self _

theorem Supplied.unblockParentOf (h : Supplied s) (child : Task) : SuppliedAfter s (unblockParentOf s child) := by
  unfold LiteBSD.unblockParentOf
  split
  · exact h.refl
  · refine h.of_ring fun t ht => ?_
    rcases mem_updateFirst ht with ht | ⟨u, hu, -, rfl⟩
    · exact ⟨t, ht, rfl⟩
    · exact ⟨u, hu, rfl⟩

theorem Supplied.taskExit (h : Supplied s) (status : Int) : SuppliedAfter s (taskExit s status) := by
  unfold LiteBSD.taskExit
  split
  · exact h.refl
  · rename_i cur _
    have h₁ := h.setTask cur.self (f := fun t => { t with state := .zombie, exitCode := status }) fun _ => rfl
    have h₂ := h₁.1.unblockParentOf cur
    refine (h₁.trans h₂).trans (h₂.1.of_ring fun t ht => ?_)
    obtain ⟨u, hu, rfl⟩ := List.mem_map.mp ht
    refine ⟨u, hu, ?_⟩
    split <;> rfl

theorem Supplied.respawnUserShell (h : Supplied s) : SuppliedAfter s (respawnUserShell s) :=
  h.addTask rfl _

theorem Supplied.forkTask (h : Supplied s) (frame : Frame) : SuppliedAfter s (forkTask s frame).1 := by
  unfold LiteBSD.forkTask
  split
  · exact h.refl
  · rename_i cur _
    split
    · exact ⟨⟨fun t ht => Nat.lt_succ_of_lt (h.ring t ht), fun c hc => Nat.lt_succ_of_lt (h.current c hc)⟩,
        Nat.le_succ _⟩
    · have h₁ := @Supplied.addTask s h ⟨⟨s.nextObj + 1, s.nextPid, cur.pid, .running⟩,
        { frame with stack := s.nextObj, eax := 0 }, s.nextObj, cur.user, 0⟩ rfl (u32 (s.nextPid + 1))
      exact h₁.trans (h₁.1.setTask cur.self fun _ => rfl)

theorem Supplied.wait4 (h : Supplied s) (pid options : Nat) : SuppliedAfter s (wait4 s pid options).1 := by
  unfold LiteBSD.wait4
  split
  · exact h.refl
  · split
    · exact h.refl
    · split
      · exact h.of_ring fun t ht => ⟨t, (List.mem_filter.mp ht).1, rfl⟩
      · split <;> exact h.refl

theorem Supplied.sysKill (h : Supplied s) (pid sig : Nat) : SuppliedAfter s (sysKill s pid sig).1 := by
  unfold LiteBSD.sysKill
  split
  · exact h.refl
  · split
    · exact h.refl
    · split
      · exact h.taskExit _
      · exact h.setTask _ fun _ => rfl

theorem Supplied.sysExit (h : Supplied s) (status : Nat) : SuppliedAfter s (sysExit s status).1 := by
  have h₁ := h.taskExit (int32 status)
  unfold LiteBSD.sysExit
  simp only
  split
  · exact h₁.trans h₁.1.respawnUserShell
  · exact h₁

theorem Supplied.sysCall (h : Supplied s) (frame : Frame) (call : Call) :
    SuppliedAfter s (sysCall s frame call).1 := by
  cases call with
  | exit status => exact h.sysExit status
  | fork => exact h.forkTask frame
  | execve entry => cases entry <;> exact h.refl
  | wait4 pid options => exact h.wait4 pid options
  | kill pid sig => exact h.sysKill pid sig
  | other ret => exact h.refl

theorem mem_of_mem_after {cur : Nat} {t : Task} (h : t ∈ s.after cur) : t ∈ s.ring := by
  simp only [Sched.after, List.mem_append] at h
  rcases h with h | h | h
  · exact (List.dropWhile_sublist _).subset (List.mem_of_mem_tail h)
  · exact (List.takeWhile_sublist _).subset h
  · exact (List.dropWhile_sublist _).subset (List.mem_of_mem_take h)

/-- `schedule` makes a task of the ring current. -/
theorem Supplied.schedule (h : Supplied s) (frame : Frame) : SuppliedAfter s (schedule s frame).1 := by
  have hpick : ∀ {s : Sched} {t : Task}, Supplied s → t ∈ s.ring → ∀ tss,
      SuppliedAfter s { s with current := some t.self, tss := tss } := by
    intro s t h ht tss
    refine ⟨⟨h.ring, fun c hc => ?_⟩, Nat.le_refl _⟩
    cases hc
    exact h.ring t ht
  unfold LiteBSD.schedule
  split
  · exact h.refl
  · rename_i first rest hring
    split
    · exact hpick h (hring ▸ List.mem_cons_self) _
    · rename_i cur hcur
      have h₁ := h.setTask cur (f := fun t => { t with frame := frame }) fun _ => rfl
      simp only
      split
      · rename_i start rest curTask hafter hct
        refine h₁.trans (hpick h₁.1 ?_ _)
        have hcurTask : curTask ∈ (s.setTask cur fun t => { t with frame := frame }).ring := by
          obtain ⟨c, -, hfind⟩ := Option.bind_eq_some_iff.mp hct
          exact List.mem_of_find?_eq_some hfind
        have hscan : scan start (start :: rest) ∈ (s.setTask cur fun t => { t with frame := frame }).ring := by
          refine @mem_of_mem_after _ cur _ ?_
          rw [hafter]
          rcases scan_spec start (start :: rest) with ⟨hm, -⟩ | ⟨he, -⟩
          · exact hm
          · rw [he]
            exact List.mem_cons_self
        split
        · exact hcurTask
        · exact hscan
      · exact h₁

theorem Supplied.leaveCall (h : Supplied s) (frame : Frame) (call : Call) (ret : Int) :
    SuppliedAfter s (leaveCall s frame call ret).1 := by
  unfold LiteBSD.leaveCall
  split
  · exact h.schedule _
  · split
    · exact h.schedule _
    · simp only
      split
      · exact h.schedule _
      · exact h.refl

theorem Supplied.isrHandler (h : Supplied s) (hret : isrHandler s = .ret s') : SuppliedAfter s s' := by
  unfold LiteBSD.isrHandler at hret
  split at hret
  · cases hret
  · have h₁ := h.taskExit (128 + 11)
    split at hret
    · simp only at hret
      split at hret
      · cases hret
        exact h₁.trans h₁.1.respawnUserShell
      · cases hret
        exact h₁
    · cases hret

/-- A trap keeps to the supply. -/
theorem Supplied.step {m m' : Machine} {t : Trap} (h : Supplied m.sched) (hs : MachineStep m t m') :
    SuppliedAfter m.sched m'.sched := by
  obtain ⟨-, hret⟩ := hs
  cases he : t.event with
  | tick =>
      rw [he] at hret
      have h₁ := h.schedule ⟨m.sched.tss, t.eip, t.eax⟩
      simp only [isrCommonHandler, Exec.ret.injEq] at hret
      rw [hret] at h₁
      exact h₁
  | call call =>
      rw [he] at hret
      have h₁ := h.sysCall ⟨m.sched.tss, t.eip, t.eax⟩ call
      have h₂ := h₁.1.leaveCall (LiteBSD.sysCall m.sched ⟨m.sched.tss, t.eip, t.eax⟩ call).2.1 call
        (LiteBSD.sysCall m.sched ⟨m.sched.tss, t.eip, t.eax⟩ call).2.2
      simp only [isrCommonHandler, Exec.ret.injEq, syscallHandler] at hret
      rw [hret] at h₂
      exact h₁.trans h₂
  | fault =>
      rw [he] at hret
      obtain ⟨s, hisr, hret⟩ := Exec.bind_eq_ret.mp hret
      have h₁ := h.isrHandler hisr
      split at hret
      · have h₂ := h₁.1.schedule ⟨m.sched.tss, t.eip, t.eax⟩
        simp only [Exec.ret.injEq] at hret
        rw [hret] at h₂
        exact h₁.trans h₂
      · simp only [Exec.ret.injEq, Prod.mk.injEq] at hret
        rw [← hret.1]
        exact h₁

theorem Supplied.boot {m : Machine} (h : MachineBoot m) : Supplied m.sched := by
  obtain ⟨init, obj, -, hs, -⟩ := h
  rw [hs]
  refine ⟨fun t ht => ?_, nofun⟩
  rw [List.mem_singleton.mp ht]
  exact Nat.lt_succ_self _

end Supply

/-! ## The break of one task along a run -/

/-- An address that `sys_brk` stores. -/
def UserHeap.inWindow (H : UserHeap) (addr : Nat) : Bool :=
  addr ≠ 0 ∧ H.heapStart ≤ addr ∧ addr ≤ H.heapEnd

/-- Where the break is after the calls, the latest first. -/
def lastMove (H : UserHeap) (addrs : List Nat) : Nat := (addrs.find? H.inWindow).getD H.heapBrk

/-- What the task at `a` asks `sys_brk` for on a stretch of a run, the latest
call first. -/
def brksOf (a : Nat) (stretch : List BreakTaken) : List Nat :=
  stretch.filterMap fun x =>
    match x.2.1.event with
    | .brk addr => if x.1.machine.sched.current = some a then some addr else none
    | .other _ _ => none

theorem brksOf_cons (a : Nat) (x : BreakTaken) (stretch : List BreakTaken) :
    brksOf a (x :: stretch) = brksOf a [x] ++ brksOf a stretch :=
  List.filterMap_append (l := [x])

theorem lastMove_cons (H : UserHeap) (addr : Nat) (addrs : List Nat) :
    lastMove H (addr :: addrs) = if H.inWindow addr then addr else lastMove H addrs := by
  unfold lastMove
  rw [List.find?_cons]
  cases H.inWindow addr <;> rfl

theorem sysBrk_moved (H : UserHeap) (addr : Nat) (addrs : List Nat) :
    (sysBrk { H with heapBrk := lastMove H addrs } addr).1 = { H with heapBrk := lastMove H (addr :: addrs) } := by
  rw [lastMove_cons]
  by_cases h0 : addr = 0
  · simp [sysBrk, UserHeap.inWindow, h0]
  · by_cases hout : addr < H.heapStart ∨ addr > H.heapEnd
    · have hw : ¬(H.heapStart ≤ addr ∧ addr ≤ H.heapEnd) := by omega
      simp [sysBrk, UserHeap.inWindow, h0, hout, hw]
    · have hw : H.heapStart ≤ addr ∧ addr ≤ H.heapEnd := by omega
      simp [sysBrk, UserHeap.inWindow, h0, hout, hw]

/-- A step of the machine with its heaps is one of the machine. -/
theorem BreakStep.suppliedAfter {m m' : BreakMachine} {t : BreakTrap} (hs : BreakStep m t m')
    (h : Supplied m.machine.sched) : SuppliedAfter m.machine.sched m'.machine.sched := by
  unfold BreakStep at hs
  split at hs
  · obtain ⟨_, -, hstep, -⟩ := hs
    exact h.step hstep
  · exact h.step hs.1

theorem trace_supplied {tr : List BreakTaken} {m : BreakMachine} (htr : breakSystem.Trace tr m) :
    Supplied m.machine.sched := by
  induction htr with
  | nil h => exact .boot h.1
  | snoc _ hs ih => exact (BreakStep.suppliedAfter hs ih).1

/-- An event stores into the heap words of a new task only. -/
theorem heapsAfter_old (s : Sched) (heapOf : Nat → UserHeap) (userHeap : Nat) (e : Event) {a : Nat}
    (ha : a < s.nextObj) : heapsAfter s heapOf userHeap e a = heapOf a := by
  unfold heapsAfter
  cases newHeap s heapOf userHeap e with
  | none => rfl
  | some heap => exact Function.update_of_ne (Nat.ne_of_lt (Nat.lt_succ_of_lt ha)) _ _

/-- A step moves the break of a task that is there by its own `sys_brk`,
and not otherwise. -/
theorem BreakStep.heapOf_old {m m' : BreakMachine} {t : BreakTrap} (hs : BreakStep m t m') {a : Nat}
    (ha : a < m.machine.sched.nextObj) {H : UserHeap} {addrs : List Nat}
    (hH : m.heapOf a = { H with heapBrk := lastMove H addrs }) :
    m'.heapOf a = { H with heapBrk := lastMove H (brksOf a [(m, t, m')] ++ addrs) } := by
  unfold BreakStep at hs
  unfold brksOf
  simp only [List.filterMap_cons, List.filterMap_nil]
  split at hs
  · rename_i addr he
    obtain ⟨c, hc, -, hheap⟩ := hs
    rw [hheap, hc]
    by_cases hac : c = a
    · subst hac
      rw [if_pos rfl, Function.update_self, hH]
      exact sysBrk_moved H addr addrs
    · rw [if_neg fun h => hac (Option.some.inj h), Function.update_of_ne (Ne.symm hac)]
      exact hH
  · rw [hs.2, heapsAfter_old _ _ _ _ ha]
    exact hH

/-- Over a whole stretch the break of a task is where its own calls left
it. -/
theorem heapOf_run {stretch before : List BreakTaken} {first : BreakTaken} {m : BreakMachine}
    (htr : breakSystem.Trace (stretch ++ first :: before) m) {a : Nat}
    (ha : a < first.2.2.machine.sched.nextObj) :
    a < m.machine.sched.nextObj ∧
      m.heapOf a = { first.2.2.heapOf a with heapBrk := lastMove (first.2.2.heapOf a) (brksOf a stretch) } := by
  induction stretch generalizing m with
  | nil => cases htr with | snoc _ _ => exact ⟨ha, rfl⟩
  | cons x stretch ih =>
      cases htr with
      | snoc htr hs =>
          obtain ⟨hold, hH⟩ := ih htr
          have hafter := (BreakStep.suppliedAfter hs (trace_supplied htr)).2
          refine ⟨Nat.lt_of_lt_of_le hold hafter, ?_⟩
          rw [BreakStep.heapOf_old hs hold hH, ← brksOf_cons]

/-! ## A fork and the exit of its child -/

/-- The events that can run `task_exit` on the current task. -/
def Dies : Event → Prop
  | .call (.exit _) | .call (.kill _ _) | .fault => True
  | _ => False

/-- A run in which the task at `parent` forks the one at `child`, which
calls no `execve` and dies, the parent being RUNNING then. -/
structure ForkedAndExited (parent child : Nat) (fork exit : BreakTaken) (stretch before : List BreakTaken) :
    Prop where
  run : breakSystem.Trace (exit :: (stretch ++ fork :: before)) exit.2.2
  caller : ∃ cur, fork.1.machine.sched.currentTask = some cur ∧ cur.self = parent ∧
    fork.1.machine.sched.tss = cur.stackBase
  forks : ∃ userHeap, fork.2.1.event = .other (.call .fork) userHeap
  made : child = fork.1.machine.sched.nextObj + 1
  noExec : ∀ x ∈ stretch, x.1.machine.sched.current = some child →
    ∀ entry userHeap, x.2.1.event ≠ .other (.call (.execve entry)) userHeap
  exits : exit.1.machine.sched.current = some child ∧
    (∃ e userHeap, exit.2.1.event = .other e userHeap ∧ Dies e) ∧
    ∃ t ∈ exit.2.2.machine.sched.ring, t.self = child ∧ t.state = .zombie
  resumed : ∃ t ∈ exit.2.2.machine.sched.ring, t.self = parent ∧ t.state = .running

/-- `sys_brk(addr)` hands out the byte at `x`. -/
def Grants (task : UserHeap) (addr x : Nat) : Prop := task.heapBrk ≤ x ∧ x < (sysBrk task addr).1.heapBrk

/-- The break of the parent is at least that of the child, and its next
`sys_brk` hands out nothing below that. -/
def BreaksAgree (m : BreakMachine) (parent child : Nat) : Prop :=
  (m.heapOf child).heapBrk ≤ (m.heapOf parent).heapBrk ∧
    ∀ addr x, Grants (m.heapOf parent) addr x → (m.heapOf child).heapBrk ≤ x

section Forked

variable {parent child : Nat} {fork exit : BreakTaken} {stretch before : List BreakTaken}

/-- Right after the fork the two heaps are the same. -/
theorem ForkedAndExited.shared (h : ForkedAndExited parent child fork exit stretch before) :
    parent < fork.2.2.machine.sched.nextObj ∧ child < fork.2.2.machine.sched.nextObj ∧
      fork.2.2.heapOf parent = fork.1.heapOf parent ∧ fork.2.2.heapOf child = fork.1.heapOf parent := by
  obtain ⟨m, t, m'⟩ := fork
  have hrun : breakSystem.Trace ((m, t, m') :: before) m' :=
    @System.Trace.upTo _ _ breakSystem (exit :: stretch) before _ _ h.run
  cases hrun with
  | snoc hbefore hs =>
      have hsup := trace_supplied hbefore
      obtain ⟨cur, hct, hself, htss⟩ := h.caller
      obtain ⟨userHeap, he⟩ := h.forks
      have hparent : parent < m.machine.sched.nextObj := by
        obtain ⟨c, -, hfind⟩ := Option.bind_eq_some_iff.mp hct
        rw [← hself]
        exact hsup.ring cur (List.mem_of_find?_eq_some hfind)
      have hchild := h.made
      simp only at he hct htss hchild
      simp only [breakSystem, BreakStep, he] at hs
      obtain ⟨⟨-, hret⟩, hheap⟩ := hs
      simp only [isrCommonHandler, Exec.ret.injEq, syscallHandler] at hret
      have hcall := (hsup.sysCall ⟨m.machine.sched.tss, t.eip, t.eax⟩ .fork).1
      have hleave := (hcall.leaveCall (sysCall m.machine.sched ⟨m.machine.sched.tss, t.eip, t.eax⟩ .fork).2.1 .fork
        (sysCall m.machine.sched ⟨m.machine.sched.tss, t.eip, t.eax⟩ .fork).2.2).2
      rw [hret] at hleave
      have hnext : m.machine.sched.nextObj + 2 ≤ m'.machine.sched.nextObj := by
        refine Nat.le_trans (Nat.le_of_eq ?_) hleave
        simp only [sysCall, forkTask, hct, htss, ne_eq, not_true_eq_false, if_false]
        rfl
      have hnew : newHeap m.machine.sched m.heapOf userHeap (.call .fork) = some (forkHeap (m.heapOf cur.self)) := by
        simp only [newHeap, hct, Option.bind_some, htss, ne_eq, not_true_eq_false, if_false]
      refine ⟨?_, ?_, ?_, ?_⟩
      · exact Nat.lt_of_lt_of_le hparent (Nat.le_trans (Nat.le_add_right _ 2) hnext)
      · rw [hchild]
        exact hnext
      · rw [hheap, heapsAfter_old _ _ _ _ hparent]
      · rw [hheap, heapsAfter, hnew, hchild, ← hself]
        exact Function.update_self _ _ _

theorem brksOf_exit (h : ForkedAndExited parent child fork exit stretch before) (a : Nat) : brksOf a [exit] = [] := by
  obtain ⟨-, ⟨e, userHeap, he, -⟩, -⟩ := h.exits
  simp only [brksOf, List.filterMap_cons, he, List.filterMap_nil]

/-- The breaks agree exactly when the last address in the window that the
child asked for is at most the last one that the parent asked for; either is
the break at the fork where there was none. -/
theorem breaks_agree_iff (h : ForkedAndExited parent child fork exit stretch before) :
    BreaksAgree exit.2.2 parent child ↔
      lastMove (fork.1.heapOf parent) (brksOf child stretch) ≤
        lastMove (fork.1.heapOf parent) (brksOf parent stretch) := by
  obtain ⟨hparent, hchild, hsame, hcopy⟩ := h.shared
  have hat : ∀ a, a < fork.2.2.machine.sched.nextObj → fork.2.2.heapOf a = fork.1.heapOf parent →
      (exit.2.2.heapOf a).heapBrk = lastMove (fork.1.heapOf parent) (brksOf a stretch) := by
    intro a ha heq
    rw [(@heapOf_run (exit :: stretch) before fork _ h.run a ha).2, brksOf_cons, brksOf_exit h, heq]
    rfl
  have hp := hat parent hparent hsame
  have hc := hat child hchild hcopy
  constructor
  · rintro ⟨hle, -⟩
    rwa [hp, hc] at hle
  · intro hle
    rw [← hp, ← hc] at hle
    exact ⟨hle, fun addr x hgrant => Nat.le_trans hle hgrant.1⟩

end Forked

/-- The heap of the first shell. -/
def shellHeap : UserHeap := createHeap 0x500000

def shellAlone : BreakMachine := ⟨⟨aloneAt 2 3 0 0, ⟨1, 0, 0⟩⟩, fun _ => shellHeap⟩

def shellForked : BreakMachine :=
  ⟨⟨⟨[shellTask .blocked 0 2, childTask 2 3 .running 0], some 4, u32 3, 3, 0, 5⟩, ⟨3, 0, 0⟩⟩,
    Function.update (fun _ => shellHeap) 4 shellHeap⟩

/-- The child has called `sys_brk`. -/
def childMoved (addr : Nat) : BreakMachine :=
  ⟨⟨shellForked.machine.sched, ⟨3, 0, ofInt32 (sysBrk shellHeap addr).2⟩⟩,
    Function.update shellForked.heapOf 4 (sysBrk shellHeap addr).1⟩

/-- The child is dead, and the shell current. -/
def childGone (addr : Nat) : BreakMachine :=
  ⟨⟨⟨[shellTask .running 0 2, childTask 2 3 .zombie 3], some 2, u32 3, 1, 0, 5⟩, ⟨1, 0, 2⟩⟩,
    (childMoved addr).heapOf⟩

/-- The first shell forks, its child asks for `addr` and exits. -/
theorem child_brk_run (addr : Nat) : ∃ fork exit stretch before,
    ForkedAndExited 2 4 fork exit stretch before ∧ fork.1.heapOf 2 = shellHeap ∧
      brksOf 4 stretch = [addr] ∧ brksOf 2 stretch = [] ∧
      exit.2.2.heapOf 4 = (sysBrk shellHeap addr).1 ∧ exit.2.2.heapOf 2 = shellHeap := by
  have hboot : breakSystem.Trace [(⟨bootMachine, fun _ => shellHeap⟩, ⟨.other .tick 0, 0, 0⟩, shellAlone)] shellAlone :=
    .snoc (.nil ⟨bootMachine_boot, _, fun _ _ => rfl⟩) ⟨bootMachine_tick, rfl⟩
  have hfork : BreakStep shellAlone ⟨.other (.call .fork) 0, 0, 5⟩ shellForked :=
    ⟨step_call .fork 5 (by simp [shellAlone, aloneAt]) (fork_from_alone (by omega) (by omega) (by omega)), rfl⟩
  have hbrk : BreakStep shellForked ⟨.brk addr, 0, 9⟩ (childMoved addr) :=
    ⟨4, rfl, step_call _ 9 (by simp [shellForked]) rfl, rfl⟩
  have hexit : BreakStep (childMoved addr) ⟨.other (.call (.exit 0)) 0, 0, 3⟩ (childGone addr) :=
    ⟨step_call (.exit 0) 3 (by simp [childMoved, shellForked]) (exit_from_child (by omega) (by omega)), rfl⟩
  refine ⟨(shellAlone, ⟨.other (.call .fork) 0, 0, 5⟩, shellForked),
    (childMoved addr, ⟨.other (.call (.exit 0)) 0, 0, 3⟩, childGone addr),
    [(shellForked, ⟨.brk addr, 0, 9⟩, childMoved addr)], _,
    ⟨.snoc (.snoc (.snoc hboot hfork) hbrk) hexit, ?_, ⟨0, rfl⟩, rfl, ?_, ?_, ?_⟩, rfl, rfl, rfl, rfl, rfl⟩
  · exact ⟨shellTask .running 0 0, rfl, rfl, rfl⟩
  · intro x hx _ entry userHeap he
    rw [List.mem_singleton.mp hx] at he
    cases he
  · exact ⟨rfl, ⟨_, _, rfl, trivial⟩, childTask 2 3 .zombie 3, List.mem_cons_of_mem _ List.mem_cons_self, rfl, rfl⟩
  · exact ⟨shellTask .running 0 2, List.mem_cons_self, rfl, rfl⟩

/-- A child that only asks where the window starts. -/
theorem breaks_agree_at_start : ∃ fork exit stretch before, ForkedAndExited 2 4 fork exit stretch before ∧
    brksOf 4 stretch = [0x500000] ∧ BreaksAgree exit.2.2 2 4 := by
  obtain ⟨fork, exit, stretch, before, hrun, hheap, hchild, hparent, -⟩ := child_brk_run 0x500000
  refine ⟨fork, exit, stretch, before, hrun, hchild, (breaks_agree_iff hrun).mpr ?_⟩
  rw [hheap, hchild, hparent]
  decide

/-- The child takes 64 KiB, as `malloc` does. -/
theorem break_lost_at_exit : ¬∀ parent child fork exit stretch before,
    ForkedAndExited parent child fork exit stretch before → BreaksAgree exit.2.2 parent child := by
  intro hall
  obtain ⟨fork, exit, stretch, before, hrun, -, -, -, hchild, hparent⟩ := child_brk_run 0x510000
  have hle := (hall _ _ _ _ _ _ hrun).1
  rw [hchild, hparent] at hle
  exact absurd hle (by decide)

end LiteBSD
