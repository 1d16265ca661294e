/-
# `LiteBSD.Tasks.Model` — what a task owns, from `fork` to `wait4`

The memory of a task: its two stacks, the heap of its program, the copy of
its parent's image and the `task_t` itself.  The descriptors are those of
`Files`, `execve` is that of `Execve`; here are the functions of
`src/sched.c` that make a task, end it and reap it, with every `kmalloc` and
`kfree` they do.

All these blocks are blocks of data in the store of the file system, since
they come from the one heap; `kfree` of a block that is not there is
`undefined`.  A task is known by the block of its `task_t`.

User memory is not kept.  A program may change it between any two calls, so
`execve` is given whatever it finds there; and the loop of `task_exit` that
copies a snapshot back stores into user memory only.
-/
import LiteBSD.Execve.Model
import LiteBSD.Files.System

namespace LiteBSD.Tasks

open Lib Files

/-- The part of a `task_t` that is about its memory. -/
structure Body where
  stackBase : Nat
  heapStart : Nat
  heapEnd : Nat
  userStackBase : Option Nat
  userStackTop : Nat
  imgSize : Nat
  imgSnapshot : Option Nat
  comm : CStr
  cmdline : List UInt8

structure State where
  kernel : Kernel
  body : Nat → Body
  place : Execve.Placement

namespace State

def withVfs (s : State) (v : Vfs) : State := { s with kernel := { s.kernel with vfs := v } }

def setBody (s : State) (t : Nat) (b : Body) : State := { s with body := Function.update s.body t b }

def kmallocBuf (s : State) (size : Nat) : Exec (State × Option Nat) := do
  let (v, p) ← s.kernel.vfs.kmallocBuf size
  .ret (s.withVfs v, p)

def kfree (s : State) (b : Nat) : Exec State := do
  let v ← Execve.kfreeBuf s.kernel.vfs b
  .ret (s.withVfs v)

/-- `if (p) kfree(p)` -/
def kfreeOpt (s : State) : Option Nat → Exec State
  | none => .ret s
  | some b => s.kfree b

end State

/-! ## Making a task -/

/-- The size of the user stack at `base`. -/
def stackSize (s : State) (b : Body) (base : Nat) : Nat :=
  let size := sub32 b.userStackTop (s.place.addr base)
  if size = 0 ∨ size > 65536 then 16384 else size

/-- The copy of the user stack for a child, with what the child stores about
it; `none` when there is no memory for it. -/
def copyUserStack (s : State) (b : Body) : Exec (State × Option Body) :=
  match b.userStackBase with
  | none => .ret (s, some b)
  | some base => do
      let size := stackSize s b base
      let (s, p) ← s.kmallocBuf size
      match p with
      | none => .ret (s, none)
      | some new => do
          let v ← s.kernel.vfs.copyBytes new (some base) size
          let delta := sub32 (s.place.addr new) (s.place.addr base)
          .ret (s.withVfs v,
            some { b with userStackBase := some new, userStackTop := u32 (b.userStackTop + delta) })

/-- `fork_task` of the task `t`. -/
def forkTask (s : State) (t : Nat) : Exec (State × Int) := do
  let b := s.body t
  let (s, p) ← s.kmallocBuf 4096
  match p with
  | none => .ret (s, -1)
  | some stack => do
      let v ← s.kernel.vfs.copyBytes stack (some b.stackBase) 4096
      let (s, p) ← (s.withVfs v).kmallocBuf taskSize
      match p with
      | none => do
          let s ← s.kfree stack
          .ret (s, -1)
      | some child => do
          let pid := s.kernel.nextPid
          let (s, copied) ← copyUserStack s b
          match copied with
          | none => do
              let s ← s.kfree stack
              let s ← s.kfree child
              .ret ({ s with kernel := { s.kernel with nextPid := u32 (pid + 1) } }, -1)
          | some b => do
              let k := addOwner s.kernel child ⟨pid, (s.kernel.owner t).pid, false⟩
              let k ← (List.finRange maxFds).foldlM (copyFd t child) k
              .ret ({ s with kernel := k }.setBody child
                { b with stackBase := stack, imgSize := 0, imgSnapshot := none }, int32 pid)

/-- `(uint32_t)` of a pointer. -/
def addrOf (s : State) (p : Option Nat) : Nat := (p.map s.place.addr).getD 0

/-- `create_user_task` -/
def createUserTask (s : State) (stale : Fin maxFds → SockPtr) : Exec State := do
  let (s, stack) ← s.kmallocBuf 4096
  let (s, ustack) ← s.kmallocBuf 4096
  match stack, ustack with
  | some stack, some ustack => do
      let (s, p) ← s.kmallocBuf taskSize
      match p with
      | none => do
          let s ← s.kfree stack
          s.kfree ustack
      | some t => do
          let k ← ([0, 1, 2] : List (Fin maxFds)).foldlM (openStd t stale)
            (addOwner s.kernel t ⟨s.kernel.nextPid, 0, false⟩)
          let (s, userHeap) ← { s with kernel := k }.kmallocBuf 0x100000
          .ret (s.setBody t
            { stackBase := stack
              heapStart := addrOf s userHeap
              heapEnd := u32 (addrOf s userHeap + 0x100000)
              userStackBase := some ustack
              userStackTop := u32 (s.place.addr ustack + 4096) / 16 * 16
              imgSize := 0
              imgSnapshot := none
              comm := str "init"
              cmdline := [] })
  | stack, ustack => do
      let s ← s.kfreeOpt stack
      s.kfreeOpt ustack

/-! ## Starting a program -/

/-- What the program behind a call of `execve` is made of, and the arguments. -/
structure Program where
  mem : Nat → UInt8
  frame : Execve.Frame
  caller : Nat → Caller
  path : Nat
  argv : Nat
  envp : Nat

/-- The ring starts at the oldest task. -/
def findTask (k : Kernel) (pid : Nat) : Option Nat :=
  k.tasks.reverse.find? fun q => (k.owner q).pid = pid

/-- The task as `execve` sees it. -/
def Body.task (b : Body) (ppid : Nat) : Execve.Task :=
  { ppid := ppid, user := true, heapStart := b.heapStart, heapEnd := b.heapEnd
    userStackBase := b.userStackBase, userStackTop := b.userStackTop, imgSize := b.imgSize
    imgSnapshot := b.imgSnapshot, comm := b.comm, cmdline := b.cmdline }

/-- What `execve` has stored into it. -/
def Body.store (b : Body) (t : Execve.Task) : Body :=
  { b with
    userStackBase := t.userStackBase, userStackTop := t.userStackTop, imgSize := t.imgSize
    imgSnapshot := t.imgSnapshot, comm := t.comm, cmdline := t.cmdline }

/-- The machine that `execve` of the task `t` runs on. -/
def execState (s : State) (t : Nat) (p : Program) : Execve.State :=
  let ppid := (s.kernel.owner t).ppid
  { vfs := s.kernel.vfs
    mem := p.mem
    task := some ((s.body t).task ppid)
    parent := (findTask s.kernel ppid).map fun q => ⟨(s.body q).imgSize, (s.body q).userStackBase⟩
    frame := p.frame
    place := s.place
    caller := p.caller }

def sysExecve (s : State) (t : Nat) (p : Program) : Exec (State × Int) := do
  let (e, r) ← Execve.sysExecveImpl (execState s t p) p.path p.argv p.envp
  let b := match e.task with
    | none => s.body t
    | some task => (s.body t).store task
  .ret ((s.withVfs e.vfs).setBody t b, r)

/-! ## The end of a task -/

/-- `task_exit` of the task `t`. -/
def taskExit (s : State) (t : Nat) : Exec State := do
  let s ← s.kfreeOpt (s.body t).imgSnapshot
  let s := s.setBody t { s.body t with imgSnapshot := none }
  let k ← Files.taskExit s.kernel t
  .ret { s with kernel := k }

/-- `sys_exit`, or `isr_handler` for a fault of the task: a task without a
parent is followed by a new shell. -/
def sysExit (s : State) (t : Nat) (stale : Fin maxFds → SockPtr) : Exec State := do
  let ppid := (s.kernel.owner t).ppid
  let s ← taskExit s t
  if ppid = 0 then createUserTask s stale else .ret s

/-- `sys_kill` with a signal that is not 0, on the task at `target`. -/
def sysKill (s : State) (t target : Nat) : Exec State :=
  if target = t then taskExit s t
  else do
    let k ← Files.sysKill s.kernel t target
    .ret { s with kernel := k }

/-- `wait4` of the task `t` that finds the child `c`. -/
def wait4 (s : State) (t c : Nat) : Exec State :=
  if c ∈ s.kernel.tasks ∧ (s.kernel.owner c).zombie ∧ (s.kernel.owner c).ppid = (s.kernel.owner t).pid then do
    let found := s.body c
    let k ← Files.wait4 s.kernel t c
    let s ← { s with kernel := k }.kfreeOpt found.imgSnapshot
    let s ← s.kfree found.stackBase
    let s ← s.kfreeOpt (if found.userStackBase = (s.body t).userStackBase then none else found.userStackBase)
    s.kfree c
  else .ret s

/-! ## The calls as a state machine -/

/-- Is the event about making or ending tasks? -/
def aboutTasks : FdEvent → Bool
  | .fork _ | .exit _ | .kill .. | .wait .. | .spawn _ => true
  | _ => false

/-- The events; `munmap` gives back any block of data. -/
inductive TaskEvent where
  | files (e : FdEvent)
  | spawn (stale : Fin maxFds → SockPtr)
  | fork (t : Nat)
  | execve (t : Nat) (p : Program)
  | exit (t : Nat) (stale : Fin maxFds → SockPtr)
  | kill (t target : Nat)
  | wait (t c : Nat)
  | mmap (t length : Nat)
  | munmap (t b : Nat)

namespace TaskEvent

/-- The task that makes the call. -/
def actor : TaskEvent → Option Nat
  | files e => e.actor
  | spawn _ => none
  | fork t | execve t _ | exit t _ | kill t _ | wait t _ | mmap t _ | munmap t _ => some t

def run (s : State) : TaskEvent → Exec State
  | files e =>
      if aboutTasks e then .ret s
      else do
        let k ← e.run s.kernel
        .ret { s with kernel := k }
  | spawn stale => createUserTask s stale
  | fork t => do let (s, _) ← forkTask s t; .ret s
  | execve t p => do let (s, _) ← sysExecve s t p; .ret s
  | exit t stale => sysExit s t stale
  | kill t target => sysKill s t target
  | wait t c => wait4 s t c
  | mmap _ length => do let (s, _) ← s.kmallocBuf length; .ret s
  | munmap _ b => s.kfree b

end TaskEvent

def taskSystem : System State TaskEvent where
  init := fun s => KernelBoot s.kernel
  step := fun s e s' => (∀ t, e.actor = some t → t ∈ s.kernel.tasks) ∧ e.run s = .ret s'

end LiteBSD.Tasks
