/-
# `LiteBSD.Keyboard.Reader` — the calls of the ring come one behind the other

`getchar` and the other routines of the ring run inside a system call of the
current task.  The timer interrupts them, since `getchar` waits with
interrupts on, and what `schedule` picks then could be a task that calls in
its turn.  It is not: while every trap leaves somebody to run, the current
task is RUNNING and no other is, so that a tick comes back to it.  A task in
the middle of a call is therefore current until the call has ended.

The console here is the machine of `LiteBSD.Sched.Steps` beside the ring of
`LiteBSD.Keyboard.Queue`, and the tasks of the ring are known by the
addresses of their `task_t`.
-/
import LiteBSD.Sched.Resume
import LiteBSD.Keyboard.Queue

namespace LiteBSD.Keyboard

open Lib

structure Console where
  machine : Machine
  readers : Readers

inductive ConsoleEvent where
  /-- `queue_char`, in an interrupt -/
  | queue (c : UInt8)
  /-- the system call of the current task calls -/
  | call (f : Routine)
  /-- its call goes on -/
  | advance
  | trap (t : Trap)

/-- Traps but the timer's come from user mode, where the task is in no call. -/
def ConsoleStep (k : Console) : ConsoleEvent → Console → Prop
  | .queue c, k' => k' = { k with readers := k.readers.next (.queue c) }
  | .call f, k' => ∃ task, k.machine.sched.current = some task ∧
      k' = { k with readers := k.readers.next (.call task f) }
  | .advance, k' => ∃ task, k.machine.sched.current = some task ∧
      k' = { k with readers := k.readers.next (.advance task) }
  | .trap t, k' =>
      (t.event = .tick ∨ ∀ task, k.machine.sched.current = some task → k.readers.calls task = .idle) ∧
        MachineStep k.machine t k'.machine ∧ k'.readers = k.readers

def consoleSystem : System Console ConsoleEvent where
  init k := MachineBoot k.machine ∧ ∃ cells, k.readers = started cells
  step := ConsoleStep

/-- If it is a trap, it leaves somebody to run. -/
def TrapLeavesRunner (k : Console) (e : ConsoleEvent) : Prop :=
  ∀ t, e = .trap t → LeavesRunner k.machine t

/-- A tick comes back to the one RUNNING task. -/
theorem tick_comes_back {m m' : Machine} {t : Trap} {c : Nat} (h : ResumeInv m.sched)
    (hc : m.sched.current = some c) (ht : t.event = .tick) (hs : MachineStep m t m') :
    m'.sched.current = some c := by
  have hleaves : LeavesRunner m t := by
    intro p _ _
    rw [ht]
    trivial
  obtain ⟨hback, hinv⟩ := h.trap hs
  have h' := hinv (hback.mpr hleaves)
  have hown : ∀ p ∈ m.sched.procs, p.self = c → p.state = .zombie → p.ppid ≠ p.pid := by
    rintro p hp rfl hz
    rw [(h.current hp hc).1] at hz
    exact nomatch hz
  obtain ⟨p, hp, rfl, s, -, -, heff, hend⟩ := trap_cases h.wf hc hown hs
  rw [ht] at heff
  -- the effect of a tick is none, and `schedule` changes no process
  obtain ⟨hd, -⟩ | ⟨-, hne, -⟩ := hend
  · have hp' : p ∈ m'.sched.procs := by
      rw [hd.procs]
      generalize hT : s.table = T at heff
      cases heff
      have hprocs : s.procs = m.sched.procs := congrArg Table.procs hT
      rwa [hprocs]
    obtain ⟨c', hc'⟩ := Option.ne_none_iff_exists'.mp hd.current_some
    rw [hc', (h'.runner c' hc').1 p hp' (h.current hp hc).1]
  · exact absurd ht hne

/-- The task in a call is the current one. -/
structure ReaderInv (k : Console) : Prop where
  resume : ResumeInv k.machine.sched
  current : ∀ task, k.readers.calls task ≠ .idle → k.machine.sched.current = some task
  reach : readerSystem.ReachVia OneCall k.readers

section Steps

variable {k k' : Console} {task : Nat}

theorem ReaderInv.others (h : ReaderInv k) (hc : k.machine.sched.current = some task) {other : Nat}
    (ho : other ≠ task) : k.readers.calls other = .idle := by
  by_contra hcall
  have hother := h.current other hcall
  rw [hc] at hother
  exact ho (Option.some.inj hother).symm

/-- The current task calls, or its call goes on. -/
theorem ReaderInv.reader (h : ReaderInv k) (hc : k.machine.sched.current = some task) {e : ReaderEvent}
    (hcall : OneCall k.readers e)
    (hothers : ∀ other, other ≠ task → (k.readers.next e).calls other = k.readers.calls other) :
    ReaderInv { k with readers := k.readers.next e } where
  resume := h.resume
  current := by
    intro other hbusy
    by_cases ho : other = task
    · rw [ho]
      exact hc
    · exact absurd ((hothers other ho).trans (h.others hc ho)) hbusy
  reach := h.reach.step hcall rfl

theorem ReaderInv.trap (h : ReaderInv k) {t : Trap} (hleaves : LeavesRunner k.machine t)
    (hs : ConsoleStep k (.trap t) k') : ReaderInv k' := by
  obtain ⟨hmode, hstep, hreaders⟩ := hs
  obtain ⟨hback, hinv⟩ := h.resume.trap hstep
  refine ⟨hinv (hback.mpr hleaves), fun task hbusy => ?_, hreaders ▸ h.reach⟩
  rw [hreaders] at hbusy
  have hc := h.current task hbusy
  rcases hmode with htick | huser
  · exact tick_comes_back h.resume hc htick hstep
  · exact absurd (huser task hc) hbusy

theorem ReaderInv.step (h : ReaderInv k) {e : ConsoleEvent} (hg : TrapLeavesRunner k e)
    (hs : ConsoleStep k e k') : ReaderInv k' := by
  cases e with
  | queue c =>
      cases hs
      exact ⟨h.resume, h.current, h.reach.step (e := ReaderEvent.queue c) nofun rfl⟩
  | call f =>
      obtain ⟨task, hc, rfl⟩ := hs
      refine h.reader hc ?_ fun other ho => ?_
      · rintro t g ⟨⟩ other ho
        exact h.others hc ho
      · show (if k.readers.calls task = .idle then k.readers.goTo task (.entered f) else k.readers).calls other = _
        split
        · exact Function.update_of_ne ho _ _
        · rfl
  | advance =>
      obtain ⟨task, hc, rfl⟩ := hs
      exact h.reader hc nofun fun other ho => calls_advance ho
  | trap t => exact h.trap (hg t rfl) hs

end Steps

/-- While every trap leaves somebody to run, the calls of all tasks come one
behind the other, and the ring is a queue. -/
theorem console_ring {k : Console} (h : consoleSystem.ReachVia TrapLeavesRunner k) :
    readerSystem.ReachVia OneCall k.readers ∧ IsQueue k.readers := by
  have hinv : ReaderInv k := by
    refine h.invariant ?_ fun k e k' hinv hg hs => hinv.step hg hs
    rintro k ⟨hboot, cells, hcells⟩
    refine ⟨.init hboot, fun task hbusy => ?_, hcells ▸ .init ⟨cells, rfl⟩⟩
    rw [hcells] at hbusy
    exact absurd rfl hbusy
  exact ⟨hinv.reach, ring_of_alone (alone_of_oneCall hinv.reach)⟩

end LiteBSD.Keyboard
