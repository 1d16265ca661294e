/-
# `LiteBSD.Files.Model` — descriptors, open files, and the calls on them

A task has 16 slots, each empty or pointing at a `struct file`; a file points
at a node, at one end of a pipe or at a socket.  The calls are those of
`src/syscall.c`, with `alloc_fd` and `release_fd` of `src/sched.c` under them,
over the file system of `Vfs`, the socket table of `Net` and the console.

All of it is on the heap, and addresses come from the one supply that `Vfs`
draws from.  `sys_open`, `sys_pipe` and the functions that make a task do not
store into the `sock` of the files they allocate; what memory holds there is
an argument of theirs, `stale`.  The struct of a task is only its three
numbers and its slots, and who runs is not decided here: any task on the
ready queue may make the next call.

`made` and `released` are for the record, no function looks at them: what a
file was opened on, and what was given back when it was freed.
-/
import Mathlib.Algebra.GroupWithZero.Nat
import LiteBSD.Vfs.Model
import LiteBSD.Net.Socket
import LiteBSD.Files.Console

namespace LiteBSD.Files

open Lib

def maxFds : Nat := 16

instance : NeZero maxFds := ⟨by decide⟩

/-- A `struct socket *`: `NULL`, a slot of the table, or neither. -/
inductive SockPtr where
  | null
  | slot (i : Fin maxSockets)
  | wild
deriving DecidableEq

structure File where
  node : Option Nat
  offset : Nat
  flags : Nat
  refCount : Int
  pipe : Option Nat
  pipeEnd : Nat
  sock : SockPtr
deriving DecidableEq

/-- `struct pipe`; the size is 4096 for every pipe. -/
structure Pipe where
  ring : RingBuffer UInt8
  readRef : Int
  writeRef : Int
  nonblocking : Bool

def pipeSize : Nat := 4096

/-- What an open file stands for. -/
inductive Held where
  | console
  | node (n : Nat)
  | readEnd (p : Nat)
  | writeEnd (p : Nat)
  | sock (i : Fin maxSockets)
deriving DecidableEq

/-- The numbers of a `task_t`. -/
structure Owner where
  pid : Nat
  ppid : Nat
  zombie : Bool
deriving DecidableEq

structure Kernel where
  tasks : List Nat
  owner : Nat → Owner
  fd : Nat × Fin maxFds → Option Nat
  file : Nat → Option File
  pipe : Nat → Option Pipe
  vfs : Vfs
  net : Net
  con : Console
  nextPid : Nat
  /-- The word at address 12, where `NULL` has its `ref_count`. -/
  nullCount : Int
  made : Nat → Option Held
  released : Nat → List Held
  /-- The blocks of which the call under way has not made anything yet, with
  the sizes it asked for. -/
  block : Nat → Option Nat

/-! ## Files and slots -/

namespace Kernel

def kmalloc (k : Kernel) (size : Nat) : Exec (Kernel × Option Nat) := do
  let (v, p) ← k.vfs.kmalloc size
  .ret ({ k with vfs := v }, p)

/-- `kmalloc`, where the block may be given back before it is anything. -/
def takeBlock (k : Kernel) (size : Nat) : Exec (Kernel × Option Nat) := do
  let (k, p) ← k.kmalloc size
  match p with
  | none => .ret (k, none)
  | some b => .ret ({ k with block := Function.update k.block b (some size) }, some b)

/-- `kfree` of such a block. -/
def kfreeBlock (k : Kernel) (b : Nat) : Exec Kernel :=
  match k.block b with
  | none => .undefined
  | some _ => .ret { k with block := Function.update k.block b none }

/-- `if (p) kfree(p)` -/
def kfreeTaken (k : Kernel) : Option Nat → Exec Kernel
  | none => .ret k
  | some b => k.kfreeBlock b

/-- Something is made of such a block. -/
def useBlock (k : Kernel) (b : Nat) : Kernel := { k with block := Function.update k.block b none }

/-- The file at `f`, which must be allocated. -/
def load (k : Kernel) (f : Nat) : Exec File :=
  match k.file f with
  | some x => .ret x
  | none => .undefined

def setFile (k : Kernel) (f : Nat) (x : File) : Kernel :=
  { k with file := Function.update k.file f (some x) }

def setFd (k : Kernel) (t : Nat) (i : Fin maxFds) (p : Option Nat) : Kernel :=
  { k with fd := Function.update k.fd (t, i) p }

/-- The stores into a file just allocated. -/
def putFile (k : Kernel) (f : Nat) (held : Held) (x : File) : Kernel :=
  { k.setFile f x with made := Function.update k.made f (some held) }

/-- `kfree(f)`, once `held` is given back. -/
def freeFile (k : Kernel) (f : Nat) (held : Held) : Kernel :=
  { k with
    file := Function.update k.file f none
    released := Function.update k.released f (k.released f ++ [held]) }

/-- The descriptor `fd` of a task, `none` where a call returns `-1` for it. -/
def fdAt (k : Kernel) (t fd : Nat) : Option Nat :=
  if h : fd < maxFds then k.fd (t, ⟨fd, h⟩) else none

end Kernel

/-- `sizeof(struct file)` -/
def fileSize : Nat := 28

/-- `sizeof(struct pipe)` -/
def pipeStructSize : Nat := 32

/-- `sizeof(task_t)` -/
def taskSize : Nat := 680

/-- The first free slot from 3 on. -/
def freeFd (k : Kernel) (t : Nat) : Option (Fin maxFds) :=
  (List.finRange maxFds).find? fun i => 3 ≤ i.val ∧ k.fd (t, i) = none

def allocFd (k : Kernel) (t f : Nat) : Kernel × Option (Fin maxFds) :=
  match freeFd k t with
  | none => (k, none)
  | some i => (k.setFd t i (some f), some i)

/-- A pipe one of whose ends is let go. -/
def Pipe.dropEnd (q : Pipe) (pipeEnd : Nat) : Pipe :=
  if pipeEnd = 0 then { q with readRef := q.readRef - 1 } else { q with writeRef := q.writeRef - 1 }

/-- The part of `release_fd` for a file that nobody holds any more. -/
def closeFile (k : Kernel) (f : Nat) (x : File) : Exec Kernel :=
  match x.pipe, x.sock, x.node with
  | some p, _, _ =>
      match k.pipe p with
      | none => .undefined
      | some q =>
          let q := q.dropEnd x.pipeEnd
          let k := { k with
            pipe := Function.update k.pipe p
              (if q.readRef ≤ 0 ∧ q.writeRef ≤ 0 then none else some q) }
          .ret (k.freeFile f (if x.pipeEnd = 0 then .readEnd p else .writeEnd p))
  | none, .slot i, _ => .ret ({ k with net := (sockClose k.net i).1 }.freeFile f (.sock i))
  | none, .wild, _ => .undefined
  | none, .null, some n => do
      let (v, _) ← vfsClose k.vfs n
      .ret ({ k with vfs := v }.freeFile f (.node n))
  | none, .null, none => .ret (k.freeFile f .console)

/-- `f->ref_count--`, and what follows from it. -/
def dropFile (k : Kernel) (f : Nat) (x : File) : Exec Kernel :=
  if x.refCount - 1 ≤ 0 then closeFile k f { x with refCount := x.refCount - 1 }
  else .ret (k.setFile f { x with refCount := x.refCount - 1 })

def releaseFd (k : Kernel) (t : Nat) (i : Fin maxFds) : Exec Kernel :=
  match k.fd (t, i) with
  | none => .ret k
  | some f => do
      let x ← k.load f
      let k ← dropFile k f x
      .ret (k.setFd t i none)

/-! ## Opening -/

def oExcl (flags : Nat) : Bool := flags.testBit 7
def oTrunc (flags : Nat) : Bool := flags.testBit 9
def oAppend (flags : Nat) : Bool := flags.testBit 10

/-- Where a file opened on the node `n` starts. -/
def startOffset (v : Vfs) (n flags : Nat) : Exec Nat :=
  if oAppend flags then do
    let st ← vfsFstat v n
    .ret st.size
  else .ret 0

/-- `sys_open` once there is a node: the file is made and gets a slot. -/
def openNode (k : Kernel) (t n flags : Nat) (stale : SockPtr) : Exec (Kernel × Int) := do
  let (k, p) ← k.kmalloc fileSize
  match p with
  | none => do
      let (v, _) ← vfsClose k.vfs n
      .ret ({ k with vfs := v }, -1)
  | some f => do
      let offset ← startOffset k.vfs n flags
      let k := k.putFile f (.node n)
        { node := some n, offset := offset, flags := flags, refCount := 1, pipe := none
          pipeEnd := 0, sock := stale }
      match allocFd k t f with
      | (k, some i) => .ret (k, i.val)
      | (k, none) => do
          let (v, _) ← vfsClose k.vfs n
          .ret ({ k with vfs := v }.freeFile f (.node n), -1)

/-- Does `O_EXCL` refuse the path? -/
def exclRefuses (k : Kernel) (c : Caller) (path : CStr) (flags : Nat) : Exec Bool :=
  if oCreat flags ∧ oExcl flags then do
    let st ← vfsStat k.vfs c path
    .ret st.isSome
  else .ret false

/-- `if (flags & O_TRUNC) vfs_truncate(node, 0)` -/
def truncOnOpen (v : Vfs) (n flags : Nat) : Exec Vfs :=
  if oTrunc flags then do
    let (v, _) ← vfsTruncate v n 0
    .ret v
  else .ret v

def sysOpen (k : Kernel) (t : Nat) (c : Caller) (path : CStr) (flags : Nat) (stale : SockPtr) :
    Exec (Kernel × Int) := do
  let refused ← exclRefuses k c path flags
  if refused then .ret (k, -1)
  else
    let (v, p) ← vfsOpen k.vfs c path flags
    match p with
    | none => .ret ({ k with vfs := v }, -1)
    | some n => do
        let v ← truncOnOpen v n flags
        openNode { k with vfs := v } t n flags stale

/-- One end of the pipe at `p`. -/
def pipeFile (p pipeEnd : Nat) (sock : SockPtr) : File :=
  { node := none, offset := 0, flags := 0, refCount := 1, pipe := some p, pipeEnd := pipeEnd
    sock := sock }

/-- `sys_pipe` once all four blocks are there. -/
def openPipe (k : Kernel) (t p r w : Nat) (stale stale' : SockPtr) : Exec (Kernel × Int) :=
  let k := { k with
    pipe := Function.update k.pipe p (some ⟨⟨fun _ => 0, 0, 0, 0⟩, 1, 1, false⟩) }
  let k := k.putFile r (.readEnd p) (pipeFile p 0 stale)
  let k := k.putFile w (.writeEnd p) (pipeFile p 1 stale')
  let (k, i) := allocFd k t r
  let (k, j) := allocFd k t w
  match i, j with
  | some _, some _ => .ret (k, 0)
  | some i, none => do
      let k ← releaseFd k t i
      .ret (k, -1)
  | none, some j => do
      let k ← releaseFd k t j
      .ret (k, -1)
  | none, none => .ret (k, -1)

/-- What `sys_pipe` does when one of the files is missing. -/
def giveBack (k : Kernel) (p b : Nat) (r w : Option Nat) : Exec Kernel := do
  let k ← k.kfreeTaken r
  let k ← k.kfreeTaken w
  let k ← k.kfreeBlock b
  k.kfreeBlock p

def sysPipe (k : Kernel) (t : Nat) (stale stale' : SockPtr) : Exec (Kernel × Int) := do
  let (k, p) ← k.takeBlock pipeStructSize
  match p with
  | none => .ret (k, -1)
  | some p => do
      let (k, b) ← k.takeBlock pipeSize
      match b with
      | none => do
          let k ← k.kfreeBlock p
          .ret (k, -1)
      | some b => do
          let (k, r) ← k.takeBlock fileSize
          let (k, w) ← k.takeBlock fileSize
          match r, w with
          | some r, some w =>
              let k := (((k.useBlock p).useBlock b).useBlock r).useBlock w
              openPipe k t p r w stale stale'
          | r, w => do
              let k ← giveBack k p b r w
              .ret (k, -1)

def sysSocket (k : Kernel) (t domain type protocol : Nat) : Exec (Kernel × Int) := do
  let (net, s) := sockCreate k.net domain type protocol
  let k := { k with net := net }
  match s with
  | none => .ret (k, -1)
  | some s => do
      let (k, p) ← k.kmalloc fileSize
      match p with
      | none => .ret ({ k with net := sockDestroy k.net s }, -1)
      | some f =>
          let k := k.putFile f (.sock s)
            { node := none, offset := 0, flags := 0, refCount := 1, pipe := none, pipeEnd := 0
              sock := .slot s }
          match allocFd k t f with
          | (k, some i) => .ret (k, i.val)
          | (k, none) => .ret ({ k with net := sockDestroy k.net s }.freeFile f (.sock s), -1)

/-! ## Duplicating and closing -/

/-- `f->ref_count++` -/
def retainFile (k : Kernel) (f : Nat) : Exec Kernel := do
  let x ← k.load f
  .ret (k.setFile f { x with refCount := x.refCount + 1 })

def sysDup (k : Kernel) (t fd : Nat) : Exec (Kernel × Int) :=
  match k.fdAt t fd with
  | none => .ret (k, -1)
  | some f =>
      match allocFd k t f with
      | (k, none) => .ret (k, -1)
      | (k, some i) => do
          let k ← retainFile k f
          .ret (k, i.val)

def sysDup2 (k : Kernel) (t oldfd newfd : Nat) : Exec (Kernel × Int) :=
  if h : oldfd < maxFds ∧ k.fdAt t oldfd ≠ none ∧ newfd < maxFds then do
    let k ← releaseFd k t ⟨newfd, h.2.2⟩
    let p := k.fd (t, ⟨oldfd, h.1⟩)
    let k := k.setFd t ⟨newfd, h.2.2⟩ p
    match p with
    | some f => do
        let k ← retainFile k f
        .ret (k, newfd)
    -- `oldfd` was `newfd`, and has just been released
    | none => .ret ({ k with nullCount := k.nullCount + 1 }, newfd)
  else .ret (k, -1)

def sysClose (k : Kernel) (t fd : Nat) : Exec (Kernel × Int) :=
  if h : fd < maxFds ∧ k.fdAt t fd ≠ none then do
    let k ← releaseFd k t ⟨fd, h.1⟩
    .ret (k, 0)
  else .ret (k, -1)

/-! ## Tasks -/

/-- One round of the loop of `fork_task` over the slots. -/
def copyFd (t child : Nat) (k : Kernel) (i : Fin maxFds) : Exec Kernel :=
  let k' := k.setFd child i (k.fd (t, i))
  match k.fd (t, i) with
  | none => .ret k'
  | some f => retainFile k' f

/-- A new task with empty slots. -/
def addOwner (k : Kernel) (t : Nat) (o : Owner) : Kernel :=
  { k with
    tasks := t :: k.tasks
    owner := Function.update k.owner t o
    fd := fun s => if s.1 = t then none else k.fd s
    nextPid := u32 (k.nextPid + 1) }

/-- `fork_task`, for a task `t` with a stack of its own. -/
def forkTask (k : Kernel) (t : Nat) : Exec (Kernel × Int) := do
  let (k, stack) ← k.kmalloc 4096
  match stack with
  | none => .ret (k, -1)
  | some _ => do
      let (k, child) ← k.kmalloc taskSize
      match child with
      | none => .ret (k, -1)
      | some child => do
          let (k, ustack) ← k.kmalloc 4096
          match ustack with
          | none => .ret ({ k with nextPid := u32 (k.nextPid + 1) }, -1)
          | some _ => do
              let pid := k.nextPid
              let k := addOwner k child ⟨pid, (k.owner t).pid, false⟩
              let k ← (List.finRange maxFds).foldlM (copyFd t child) k
              .ret (k, int32 pid)

/-- A console file for the slot `i` of a new task. -/
def consoleFile (i : Fin maxFds) (sock : SockPtr) : File :=
  { node := none, offset := 0, flags := if i.val = 0 then 0 else 1, refCount := 1, pipe := none
    pipeEnd := 0, sock := sock }

/-- One round of the loop over the standard descriptors. -/
def openStd (t : Nat) (stale : Fin maxFds → SockPtr) (k : Kernel) (i : Fin maxFds) :
    Exec Kernel := do
  let (k, p) ← k.kmalloc fileSize
  match p with
  | none => .ret k
  | some f => .ret ((k.putFile f .console (consoleFile i (stale i))).setFd t i (some f))

/-- `create_user_task` -/
def createUserTask (k : Kernel) (stale : Fin maxFds → SockPtr) : Exec Kernel := do
  let (k, task) ← k.kmalloc taskSize
  match task with
  | none => .ret k
  | some t =>
      ([0, 1, 2] : List (Fin maxFds)).foldlM (openStd t stale) (addOwner k t ⟨k.nextPid, 0, false⟩)

/-- `task_exit` of the task `t`: its children go to its parent, and every
descriptor is released. -/
def taskExit (k : Kernel) (t : Nat) : Exec Kernel :=
  let k := { k with owner := Function.update k.owner t { k.owner t with zombie := true } }
  let k := { k with
    owner := fun c =>
      if (k.owner c).ppid = (k.owner t).pid then { k.owner c with ppid := (k.owner t).ppid }
      else k.owner c }
  (List.finRange maxFds).foldlM (fun k i => releaseFd k t i) k

/-- `sys_kill` with a signal that is not 0, on the task at `target`. -/
def sysKill (k : Kernel) (t target : Nat) : Exec Kernel :=
  if target = t then taskExit k t
  else .ret { k with
    owner := Function.update k.owner target { k.owner target with zombie := true } }

/-- `wait4` that finds the child `c`: nothing is done to its slots. -/
def wait4 (k : Kernel) (t c : Nat) : Exec Kernel :=
  if c ∈ k.tasks ∧ (k.owner c).zombie ∧ (k.owner c).ppid = (k.owner t).pid then
    .ret { k with tasks := k.tasks.erase c }
  else .ret k

end LiteBSD.Files
