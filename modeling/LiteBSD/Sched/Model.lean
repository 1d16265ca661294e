/-
# `LiteBSD.Sched.Model` — the ready queue, the process calls and the traps

The scheduler of `src/sched.c` with the process calls of `src/syscall.c` and
the trap entry points of `src/idt.c`.

`ready_queue` points at the LAST task of a circular list.  The model keeps
the ring as the list that starts at `ready_queue->next`, which is where every
loop of the source starts.  A task is known by the address of its `task_t`,
a kernel stack by its base; both are taken from a supply that never repeats,
since `kmalloc` never hands out a block that is still held and never returns
`NULL` for these sizes (it ends in `err()` instead).

Of a task only what scheduling reads is kept here: its memory (user stack,
heap, image snapshot), its descriptors and its accounting are left to the
components that are about them.
-/
import LiteBSD.Exec
import Mathlib.Data.List.Basic

namespace LiteBSD

/-- `TASK_RUNNING`, `TASK_ZOMBIE`, `TASK_BLOCKED` -/
inductive TaskState where
  | running
  | zombie
  | blocked
deriving DecidableEq, Repr

/-- The words of a `struct interrupt_frame` that the code below uses, and
the kernel stack the frame lies on. -/
structure Frame where
  stack : Nat
  eip : Nat
  eax : Nat
deriving DecidableEq, Repr

/-- The part of a `task_t` that decides who runs: its address, its place in
the process tree and its state. -/
structure Proc where
  self : Nat
  pid : Nat
  ppid : Nat
  state : TaskState
deriving DecidableEq, Repr

/-- `task_t` -/
structure Task extends Proc where
  frame : Frame
  stackBase : Nat
  user : Bool
  exitCode : Int
deriving DecidableEq, Repr

/-- The statics of `sched.c`, the stack of the task state segment, the
address of `user_init` and the supply of addresses. -/
structure Sched where
  ring : List Task
  current : Option Nat
  nextPid : Nat
  tss : Nat
  userInit : Nat
  nextObj : Nat
deriving DecidableEq, Repr

/-- Changing the first element that meets a test, as a loop with `break`
does. -/
def updateFirst {α : Type} (test : α → Bool) (f : α → α) : List α → List α
  | [] => []
  | a :: l => if test a then f a :: l else a :: updateFirst test f l

namespace Sched

/-- A store into the `task_t` at `self`. -/
def setTask (s : Sched) (self : Nat) (f : Task → Task) : Sched :=
  { s with ring := s.ring.map fun t => if t.self = self then f t else t }

/-- `*current_task` -/
def currentTask (s : Sched) : Option Task :=
  s.current.bind fun c => s.ring.find? fun t => t.self = c

/-- The ring from the task behind `cur` round to `cur` itself. -/
def after (s : Sched) (cur : Nat) : List Task :=
  let rest := s.ring.dropWhile fun t => t.self ≠ cur
  rest.tail ++ (s.ring.takeWhile (fun t => t.self ≠ cur) ++ rest.take 1)

end Sched

def addTask (s : Sched) (task : Task) : Sched :=
  { s with ring := s.ring ++ [task] }

def removeTask (s : Sched) (target : Nat) : Sched :=
  { s with ring := s.ring.filter fun t => t.self ≠ target }

def findTask (s : Sched) (pid : Nat) : Option Task :=
  s.ring.find? fun t => t.pid = pid

def createUserTask (s : Sched) (entry : Nat) : Sched :=
  let kernelStack := s.nextObj
  addTask { s with nextPid := u32 (s.nextPid + 1), nextObj := s.nextObj + 2 }
    { self := s.nextObj + 1
      pid := s.nextPid
      ppid := 0
      state := .running
      frame := ⟨kernelStack, entry, 0⟩
      stackBase := kernelStack
      user := true
      exitCode := 0 }

def respawnUserShell (s : Sched) : Sched := createUserTask s s.userInit

/-- The search loop of `schedule`: the first RUNNING task, or back at the
start. -/
def scan (start : Task) : List Task → Task
  | [] => start
  | next :: rest => if next.state = .running then next else scan start rest

def schedule (s : Sched) (frame : Frame) : Sched × Frame :=
  match s.ring with
  | [] => (s, frame)
  | first :: _ =>
      match s.current with
      | none => ({ s with current := some first.self, tss := first.stackBase }, first.frame)
      | some cur =>
          let s := s.setTask cur fun t => { t with frame := frame }
          match s.after cur, s.currentTask with
          | start :: rest, some curTask =>
              let next := scan start (start :: rest)
              let next :=
                if next.state ≠ .running ∧ curTask.state = .running then curTask else next
              ({ s with current := some next.self, tss := next.stackBase }, next.frame)
          -- `current_task` is on the ring
          | _, _ => (s, frame)

def unblockParentOf (s : Sched) (child : Task) : Sched :=
  if child.ppid = 0 then s
  else { s with
    ring := updateFirst (fun t => t.pid = child.ppid ∧ t.state = .blocked)
      (fun t => { t with state := .running }) s.ring }

/-- `fork_task`: `-1` when the frame is not on the kernel stack of the
current task. -/
def forkTask (s : Sched) (frame : Frame) : Sched × Int :=
  match s.currentTask with
  | none => (s, -1)
  | some cur =>
      let stack := s.nextObj
      if frame.stack ≠ cur.stackBase then ({ s with nextObj := s.nextObj + 1 }, -1)
      else
        let task : Task :=
          { self := s.nextObj + 1
            pid := s.nextPid
            ppid := cur.pid
            state := .running
            frame := { frame with stack := stack, eax := 0 }
            stackBase := stack
            user := cur.user
            exitCode := 0 }
        let s := { s with nextPid := u32 (s.nextPid + 1), nextObj := s.nextObj + 2 }
        let s := addTask s task
        (s.setTask cur.self fun t => { t with state := .blocked }, int32 task.pid)

/-- Is `t` a child that a `wait4(pid)` of `cur` asks for? -/
def waitsFor (cur : Task) (pid : Nat) (t : Task) : Bool :=
  t.ppid = cur.pid ∧ (int32 pid = -1 ∨ pid = t.pid)

/-- The child `wait4` reaps. -/
def waitFound (s : Sched) (cur : Task) (pid : Nat) : Option Task :=
  s.ring.find? fun t => waitsFor cur pid t && t.state = .zombie

def wait4 (s : Sched) (pid options : Nat) : Sched × Int :=
  match s.currentTask with
  | none => (s, -1)
  | some cur =>
      if ¬s.ring.any (waitsFor cur pid) then (s, -1)
      else
        match waitFound s cur pid with
        | some found => (removeTask s found.self, int32 found.pid)
        | none => if options % 2 = 1 then (s, 0) else (s, -2)

def taskExit (s : Sched) (status : Int) : Sched :=
  match s.currentTask with
  | none => s
  | some cur =>
      let s := s.setTask cur.self fun t => { t with state := .zombie, exitCode := status }
      let s := unblockParentOf s cur
      { s with
        ring := s.ring.map fun t => if t.ppid = cur.pid then { t with ppid := cur.ppid } else t }

/-! ## System calls -/

/-- The calls that touch tasks, and every other call by what it returns.
`execve` is known by the entry point it sets, `none` when it fails. -/
inductive Call where
  | exit (status : Nat)
  | fork
  | execve (entry : Option Nat)
  | wait4 (pid options : Nat)
  | kill (pid sig : Nat)
  | other (ret : Int)
deriving DecidableEq, Repr

def sysExit (s : Sched) (status : Nat) : Sched × Int :=
  let ppid := (s.currentTask.map fun t => t.ppid).getD 1
  let s := taskExit s (int32 status)
  if ppid = 0 then (respawnUserShell s, 0) else (s, 0)

def sysKill (s : Sched) (pid sig : Nat) : Sched × Int :=
  match findTask s pid with
  | none => (s, -1)
  | some target =>
      if sig = 0 then (s, 0)
      else if some target.self = s.current then (taskExit s (int32 (u32 (128 + sig))), 0)
      else
        (s.setTask target.self fun t =>
          { t with state := .zombie, exitCode := int32 (u32 (128 + sig)) }, 0)

/-- The entry of `syscall_table`, with what it does to the frame. -/
def sysCall (s : Sched) (frame : Frame) : Call → Sched × Frame × Int
  | .exit status => let (s, ret) := sysExit s status; (s, frame, ret)
  | .fork => let (s, ret) := forkTask s frame; (s, frame, ret)
  | .execve (some entry) => (s, { frame with eip := entry, eax := 0 }, 0)
  | .execve none => (s, frame, -1)
  | .wait4 pid options => let (s, ret) := wait4 s pid options; (s, frame, ret)
  | .kill pid sig => let (s, ret) := sysKill s pid sig; (s, frame, ret)
  | .other ret => (s, frame, ret)

/-- `current_task` is a zombie. -/
def Sched.currentZombie (s : Sched) : Bool :=
  s.currentTask.any fun t => t.state = .zombie

def Call.isWait4 : Call → Bool
  | .wait4 _ _ => true
  | _ => false

/-- The rest of `syscall_handler`, once the call returned `ret`: a zombie is
never returned to, a `wait4` with nothing to reap is retried, and a fork goes
on to the child. -/
def leaveCall (s : Sched) (frame : Frame) (call : Call) (ret : Int) : Sched × Frame :=
  if s.currentZombie then schedule s frame
  else if call.isWait4 ∧ ret = -2 then
    schedule s { frame with eax := 7, eip := sub32 frame.eip 2 }
  else
    let frame := { frame with eax := ofInt32 ret }
    if call = .fork ∧ ret > 0 then schedule s frame
    else if s.currentZombie then schedule s frame
    else (s, frame)

def syscallHandler (s : Sched) (frame : Frame) (call : Call) : Sched × Frame :=
  let (s, frame, ret) := sysCall s frame call
  leaveCall s frame call ret

/-! ## Traps -/

/-- `isr_handler` for an exception in ring 3: a fault of the kernel halts. -/
def isrHandler (s : Sched) : Exec Sched :=
  match s.currentTask with
  | none => .hang
  | some ct =>
      if ct.user then
        let killedPpid := ct.ppid
        let s := taskExit s (128 + 11)
        if killedPpid = 0 then .ret (respawnUserShell s) else .ret s
      else .hang

/-- What brings the processor into the kernel. -/
inductive Event where
  | tick
  | call (c : Call)
  | fault
deriving DecidableEq, Repr

def isrCommonHandler (s : Sched) (frame : Frame) : Event → Exec (Sched × Frame)
  | .call c => .ret (syscallHandler s frame c)
  | .tick => .ret (schedule s frame)
  | .fault => do
      let s ← isrHandler s
      if s.currentZombie then .ret (schedule s frame) else .ret (s, frame)

end LiteBSD
