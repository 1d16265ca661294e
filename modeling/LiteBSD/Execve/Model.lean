/-
# `LiteBSD.Execve.Model` — `sys_execve_impl`

`execve` of `src/syscall.c`: it copies the two vectors out of user memory,
follows `#!` lines to an ELF file, reads the headers, clears and loads the one
window that all images share, and builds a new stack.

Kernel buffers are blocks of the stores of `Vfs`, whose `kmalloc` this code
calls like the file system does; giving one back twice is `undefined`.  User
programs are seen at their addresses: `mem` is what a program finds there.
Of the window's surroundings only the range for images,
`0x07000000..0x09000000`, is kept, and a store outside of it is `undefined`.

`kmalloc` moves nothing a program has in its own memory, so the vectors stay
as they are while they are copied.
-/
import LiteBSD.Vfs.Model
import Mathlib.Algebra.GroupWithZero.Nat

namespace LiteBSD.Execve

/-- `EXEC_MAX_ARGS` -/
def execMaxArgs : Nat := 64
/-- `EXEC_MAX_ENVS` -/
def execMaxEnvs : Nat := 64
/-- `EXEC_MAX_STRLEN` -/
def execMaxStrlen : Nat := 1024
/-- `EXEC_MAX_TOTAL` -/
def execMaxTotal : Nat := 8192
/-- `EXEC_STACK_SIZE` -/
def execStackSize : Nat := 16384
/-- `USER_LOAD_ADDR` -/
def userLoadAddr : Nat := 0x8000000
/-- `ELF_PT_LOAD` -/
def elfPtLoad : Nat := 1

/-- The words of a `struct interrupt_frame` that `execve` sets. -/
structure Frame where
  eip : Nat
  esp : Nat
  useresp : Nat
  ebp : Nat
  eax : Nat
deriving DecidableEq, Repr

/-- The part of a `task_t` that `execve` reads or sets. -/
structure Task where
  ppid : Nat
  user : Bool
  heapStart : Nat
  heapEnd : Nat
  userStackBase : Option Nat
  userStackTop : Nat
  imgSize : Nat
  imgSnapshot : Option Nat
  comm : CStr
  cmdline : List UInt8
deriving DecidableEq, Repr

/-- What `execve` looks at in the task that `find_task(task->ppid)` finds. -/
structure Parent where
  imgSize : Nat
  userStackBase : Option Nat
deriving DecidableEq, Repr

/-- Where the blocks of the heap are.  Those for a stack are in the heap. -/
structure Placement where
  addr : Nat → Nat
  inHeap : ∀ b, heapStart < addr b ∧ addr b + execStackSize ≤ heapEnd

structure State where
  vfs : Vfs
  mem : Nat → UInt8
  task : Option Task
  parent : Option Parent
  frame : Frame
  place : Placement
  /-- Who opens a file in each round of the `#!` loop: the texts of the
  generated files may change in between. -/
  caller : Nat → Caller

/-! ## User memory -/

def schedulerUserRangeValid (s : State) (t : Task) (start length : Nat) : Bool :=
  if !t.user ∨ start = 0 then false
  else
    let stop := u32 (start + length)
    if stop < start then false
    else if start ≥ 0x07000000 ∧ stop ≤ 0x09000000 then true
    else if t.heapStart ≠ 0 ∧ start ≥ t.heapStart ∧ stop ≤ t.heapEnd then true
    else if t.userStackBase.any fun b =>
        start ≥ s.place.addr b ∧ stop ≤ u32 (s.place.addr b + 65536) then true
    else start < 0x1000000

def syscallRangeValid (s : State) (address length : Nat) : Bool :=
  match s.task with
  | none => address ≠ 0 ∨ length = 0
  | some t => if !t.user then address ≠ 0 ∨ length = 0 else schedulerUserRangeValid s t address length

/-- Four bytes, the lowest first. -/
def le32 (b : List UInt8) : Nat :=
  (b.getD 0 0).toNat + 256 * ((b.getD 1 0).toNat + 256 * ((b.getD 2 0).toNat + 256 * (b.getD 3 0).toNat))

def le16 (b : List UInt8) : Nat := (b.getD 0 0).toNat + 256 * (b.getD 1 0).toNat

/-- The `n` bytes at `address`. -/
def State.bytes (s : State) (address n : Nat) : List UInt8 :=
  (List.range n).map fun j => s.mem (u32 (address + j))

def State.word (s : State) (address : Nat) : Nat := le32 (s.bytes address 4)

/-- The loop of `exec_user_strlen`, with the rounds still to come. -/
def strlenLoop (s : State) (uaddr : Nat) : Nat → Nat → Option Nat
  | 0, _ => none
  | rounds + 1, i =>
      if !syscallRangeValid s (u32 (uaddr + i)) 1 then none
      else if s.mem (u32 (uaddr + i)) = 0 then some i
      else strlenLoop s uaddr rounds (i + 1)

def execUserStrlen (s : State) (uaddr : Nat) : Option Nat := strlenLoop s uaddr execMaxStrlen 0

/-! ## Vectors -/

/-- An entry of `kbufs` with its `klens`. -/
structure KString where
  buf : Nat
  len : Nat
deriving DecidableEq, Repr

/-- A vector in kernel buffers, with its total. -/
structure Vec where
  entries : List KString
  total : Nat
deriving DecidableEq, Repr

/-- `kfree` of a block of data. -/
def kfreeBuf (v : Vfs) (b : Nat) : Exec Vfs :=
  match v.buf b with
  | none => .undefined
  | some _ => .ret (v.freeBuf (some b))

def execFreeVec (v : Vfs) : List KString → Exec Vfs
  | [] => .ret v
  | k :: entries => do
      let v ← kfreeBuf v k.buf
      execFreeVec v entries

/-- A `kmalloc` with these bytes stored into it. -/
def kmallocBytes (v : Vfs) (src : List UInt8) : Exec (Vfs × Option Nat) := do
  let (v, p) ← v.kmallocBuf src.length
  match p with
  | none => .ret (v, none)
  | some b => do
      let v ← v.storeBytes (some b) 0 src
      .ret (v, some b)

/-- The loop of `exec_copy_vec` from entry `i` on: what it has copied, and
whether it does not `goto fail`. -/
def copyLoop (s : State) (uvec : Nat) : Nat → Nat → Vfs → Vec → Exec (Vfs × Vec × Bool)
  | 0, _, v, vec => .ret (v, vec, true)
  | rounds + 1, i, v, vec =>
      if !syscallRangeValid s (u32 (uvec + i * 4)) 4 then .ret (v, vec, false)
      else
        let a := s.word (u32 (uvec + i * 4))
        if a = 0 then .ret (v, vec, true)
        else
          match execUserStrlen s a with
          | none => .ret (v, vec, false)
          | some len =>
              if u32 (vec.total + len + 1) > execMaxTotal then .ret (v, vec, false)
              else do
                let (v, p) ← kmallocBytes v (s.bytes a (len + 1))
                match p with
                | none => .ret (v, vec, false)
                | some k =>
                    copyLoop s uvec rounds (i + 1) v
                      ⟨vec.entries ++ [⟨k, len⟩], vec.total + len + 1⟩

/-- A vector that ran to its end without a `NULL` must have it next. -/
def endOk (s : State) (uvec max count : Nat) : Bool :=
  if count = max then
    syscallRangeValid s (u32 (uvec + max * 4)) 4 ∧ s.word (u32 (uvec + max * 4)) = 0
  else true

def execCopyVec (s : State) (v : Vfs) (uvec max : Nat) : Exec (Vfs × Option Vec) :=
  if uvec = 0 then .ret (v, some ⟨[], 0⟩)
  else do
    let (v, vec, ok) ← copyLoop s uvec max 0 v ⟨[], 0⟩
    if ok ∧ endOk s uvec max vec.entries.length then .ret (v, some vec)
    else do
      let v ← execFreeVec v vec.entries
      .ret (v, none)

/-- `1 + (argc + 1) + (envc + 1)` -/
def nwords (argv envv : Vec) : Nat := 1 + (argv.entries.length + 1) + (envv.entries.length + 1)

/-- The budget test. -/
def tooBig (argv envv : Vec) : Bool :=
  u32 (argv.total + envv.total + nwords argv envv * 4 + 64) > execStackSize - 128

/-- The end of most failures: both vectors go. -/
def giveUp (v : Vfs) (argv envv : Vec) : Exec Vfs := do
  let v ← execFreeVec v argv.entries
  execFreeVec v envv.entries

/-! ## The `#!` loop -/

/-- `' '` or `'\t'` -/
def isBlank (c : UInt8) : Bool := c = 32 ∨ c = 9

/-- `'\n'`, `'\r'` or `'\0'` -/
def endsLine (c : UInt8) : Bool := c = 10 ∨ c = 13 ∨ c = 0

/-- The name of an interpreter, and the rest of its line. -/
structure Line where
  interp : CStr
  optarg : CStr
deriving DecidableEq, Repr

def parseLine (hbuf : List UInt8) : Line :=
  let rest := (hbuf.drop 2).dropWhile isBlank
  let interp := rest.takeWhile fun c => !endsLine c && !isBlank c
  let rest := (rest.drop interp.length).dropWhile isBlank
  let arg := rest.takeWhile fun c => !endsLine c
  ⟨interp, (arg.reverse.dropWhile isBlank).reverse⟩

/-- `7F 'E' 'L' 'F'` -/
def isElf (hbuf : List UInt8) : Bool := hbuf.take 4 = [127, 69, 76, 70]

/-- `'#' '!'` -/
def isScript (hbuf : List UInt8) : Bool := hbuf.take 2 = [35, 33]

/-- The new strings in front of `argv[1..]`, made one after the other; none
stays when there is no memory for one. -/
def newStrings (v : Vfs) : List CStr → List KString → Exec (Vfs × Option (List KString))
  | [], made => .ret (v, some made)
  | text :: texts, made => do
      let (v, p) ← kmallocBytes v (text ++ [0])
      match p with
      | none => do
          let v ← execFreeVec v made
          .ret (v, none)
      | some k => newStrings v texts (made ++ [⟨k, text.length⟩])

/-- The texts in front: the interpreter, the rest of its line if there is
any, and the path of the script. -/
def frontTexts (line : Line) (path : CStr) : List CStr :=
  line.interp :: (if line.optarg = [] then [] else [line.optarg]) ++ [path]

/-- The vector of the interpreter; `argv[0]` is freed. -/
def rewriteArgv (v : Vfs) (line : Line) (path : CStr) (argv : Vec) : Exec (Vfs × Option Vec) := do
  let (v, made) ← newStrings v (frontTexts line path) []
  match made with
  | none => .ret (v, none)
  | some made => do
      let v ← execFreeVec v (argv.entries.take 1)
      let entries := made ++ argv.entries.drop 1
      .ret (v, some ⟨entries, (entries.map fun k => k.len + 1).sum⟩)

/-- What the loop goes on with. -/
structure Script where
  path : CStr
  argv : Vec
  node : Option Nat

/-- `if (node) vfs_close(node)` -/
def closeNode (v : Vfs) : Option Nat → Exec Vfs
  | none => .ret v
  | some a => do
      let (v, _) ← vfsClose v a
      .ret v

/-- A failure with the node open. -/
def closeAndGiveUp (v : Vfs) (node : Nat) (argv envv : Vec) : Exec Vfs := do
  let v ← closeNode v (some node)
  giveUp v argv envv

/-- The rounds of the loop; `none` where the call returns `-1`. -/
def scriptLoop (caller : Nat → Caller) (envv : Vec) : Nat → Vfs → Script → Exec (Vfs × Option Script)
  | 0, v, s => .ret (v, some s)
  | rounds + 1, v, s => do
      let v ← closeNode v s.node
      let (v, p) ← vfsOpen v (caller rounds) s.path 0
      match p with
      | none => do
          let v ← giveUp v s.argv envv
          .ret (v, none)
      | some node => do
          let (hbuf, _) ← vfsRead v node 0 128
          if isElf hbuf then .ret (v, some { s with node := some node })
          else if isScript hbuf then
            let line := parseLine hbuf
            let need := s.argv.entries.length + 1 + (if line.optarg = [] then 0 else 1)
            -- `Bad #! line`, `#! argv overflow`
            if line.interp = [] ∨ line.interp.length ≥ 128 ∨ need > execMaxArgs then do
              let v ← closeAndGiveUp v node s.argv envv
              .ret (v, none)
            else do
              let (v, argv) ← rewriteArgv v line s.path s.argv
              match argv with
              | none => do
                  let v ← closeAndGiveUp v node s.argv envv
                  .ret (v, none)
              | some argv => scriptLoop caller envv rounds v ⟨line.interp, argv, some node⟩
          -- `Not an ELF binary`
          else do
            let v ← closeAndGiveUp v node s.argv envv
            .ret (v, none)

/-! ## Loading -/

/-- An entry of the program header table, as `execve` reads it. -/
structure Segment where
  ptype : Nat
  offset : Nat
  vaddr : Nat
  filesz : Nat
  memsz : Nat
deriving DecidableEq, Repr

def segmentOf (ph : List UInt8) : Segment :=
  ⟨le32 ph, le32 (ph.drop 4), le32 (ph.drop 8), le32 (ph.drop 16), le32 (ph.drop 20)⟩

/-- The fields of the ELF header. -/
structure Header where
  entry : Nat
  phoff : Nat
  phentsize : Nat
  phnum : Nat
deriving DecidableEq, Repr

def headerOf (header : List UInt8) : Header :=
  ⟨le32 (header.drop 24), le32 (header.drop 28), le16 (header.drop 42), le16 (header.drop 44)⟩

/-- `vfs_read` of the entry `i`; `none` when it is not all there. -/
def readSegment (v : Vfs) (node : Nat) (h : Header) (i : Nat) : Exec (Option Segment) := do
  let (ph, ret) ← vfsRead v node (u32 (h.phoff + i * h.phentsize)) 32
  if ret ≠ 32 then .ret none else .ret (some (segmentOf ph))

/-- The first pass over the table: the end of the segments, in the window. -/
def scanLoop (v : Vfs) (node : Nat) (h : Header) : Nat → Nat → Nat → Exec (Option Nat)
  | 0, _, clearEnd => .ret (some clearEnd)
  | rounds + 1, i, clearEnd => do
      let seg ← readSegment v node h i
      match seg with
      | none => .ret none
      | some seg =>
          if seg.ptype ≠ elfPtLoad then scanLoop v node h rounds (i + 1) clearEnd
          else
            let segEnd := u32 (sub32 seg.vaddr userLoadAddr + seg.memsz)
            scanLoop v node h rounds (i + 1) (if segEnd > clearEnd then segEnd else clearEnd)

/-- The range that images can be in. -/
def inRange (address n : Nat) : Bool := 0x07000000 ≤ address ∧ address + n ≤ 0x09000000

def storeMem (mem : Nat → UInt8) (address : Nat) (src : List UInt8) : Exec (Nat → UInt8) :=
  if src = [] then .ret mem
  else if inRange address src.length then
    .ret fun a => if address ≤ a then (src[a - address]?).getD (mem a) else mem a
  else .undefined

def zeroMem (mem : Nat → UInt8) (address n : Nat) : Exec (Nat → UInt8) :=
  if n = 0 then .ret mem
  else if inRange address n then .ret fun a => if address ≤ a ∧ a < address + n then 0 else mem a
  else .undefined

/-- One segment of type `ELF_PT_LOAD`. -/
def loadSegment (v : Vfs) (node : Nat) (mem : Nat → UInt8) (seg : Segment) : Exec (Nat → UInt8) := do
  let dest := u32 (userLoadAddr + sub32 seg.vaddr userLoadAddr)
  -- `vfs_read` takes no `NULL`
  let mem ←
    if seg.filesz > 0 ∧ dest ≠ 0 then do
      let (bytes, _) ← vfsRead v node seg.offset seg.filesz
      storeMem mem dest bytes
    else .ret mem
  if seg.memsz > seg.filesz then zeroMem mem (dest + seg.filesz) (seg.memsz - seg.filesz)
  else .ret mem

/-- The second pass; what it leaves of memory, and whether it was all
there. -/
def loadLoop (v : Vfs) (node : Nat) (h : Header) : Nat → Nat → (Nat → UInt8) →
    Exec ((Nat → UInt8) × Bool)
  | 0, _, mem => .ret (mem, true)
  | rounds + 1, i, mem => do
      let seg ← readSegment v node h i
      match seg with
      | none => .ret (mem, false)
      | some seg =>
          if seg.ptype ≠ elfPtLoad then loadLoop v node h rounds (i + 1) mem
          else do
            let mem ← loadSegment v node mem seg
            loadLoop v node h rounds (i + 1) mem

/-- The copy that the first `execve` of a child takes of the image of its
parent. -/
def takeSnapshot (s : State) : Exec State :=
  match s.task, s.parent with
  | some t, some p =>
      if t.ppid ≠ 0 ∧ t.imgSnapshot = none ∧ p.imgSize > 0 ∧ p.imgSize ≤ 0x400000 then do
        let (v, snap) ← kmallocBytes s.vfs (s.bytes userLoadAddr p.imgSize)
        match snap with
        | none => .ret { s with vfs := v }
        | some b => .ret { s with
            vfs := v, task := some { t with imgSnapshot := some b, imgSize := p.imgSize } }
      else .ret s
  | _, _ => .ret s

/-! ## The stack -/

/-- `stack_top` of a stack at `base`. -/
def stackTop (base : Nat) : Nat := u32 (base + execStackSize - 64) / 16 * 16

/-- A store into the block at `base`. -/
def storeAt (base : Nat) (m : Buf) (address : Nat) (src : List UInt8) : Exec Buf :=
  if base ≤ address ∧ address + src.length ≤ base + m.len then .ret (m.write (address - base) src)
  else .undefined

/-- The loop that pushes the strings of a vector, the last one first; each
comes with its NUL. -/
def pushStrings (base : Nat) : List (List UInt8) → Buf → Nat → Exec (Buf × Nat × List Nat)
  | [], m, sp => .ret (m, sp, [])
  | text :: texts, m, sp => do
      let (m, sp, addrs) ← pushStrings base texts m sp
      let sp := sub32 sp text.length
      let m ← storeAt base m sp text
      .ret (m, sp, sp :: addrs)

/-- A word, the lowest byte first. -/
def bytes32 (w : Nat) : List UInt8 :=
  [w.toUInt8, (w / 256).toUInt8, (w / 65536).toUInt8, (w / 16777216).toUInt8]

/-- The words at `esp`. -/
def pointerTable (argAddrs envAddrs : List Nat) : List Nat :=
  argAddrs.length :: (argAddrs ++ 0 :: (envAddrs ++ [0]))

/-- The strings on the stack, and the words below them. -/
structure Pushed where
  stack : Buf
  sp : Nat
  argAddrs : List Nat
  envAddrs : List Nat

def pushVectors (base : Nat) (stack : Buf) (args envs : List (List UInt8)) : Exec Pushed := do
  let (m, sp, argAddrs) ← pushStrings base args stack (stackTop base)
  let (m, sp, envAddrs) ← pushStrings base envs m sp
  .ret ⟨m, sp, argAddrs, envAddrs⟩

/-- `sp -= nwords * 4; sp &= ~0x0F` -/
def tableAddr (p : Pushed) : Nat :=
  sub32 p.sp ((1 + (p.argAddrs.length + 1) + (p.envAddrs.length + 1)) * 4) / 16 * 16

/-- `Stack overflow` -/
def overflows (base : Nat) (p : Pushed) : Bool := tableAddr p < u32 (base + 64)

def writeTable (base : Nat) (p : Pushed) : Exec Buf :=
  storeAt base p.stack (tableAddr p) ((pointerTable p.argAddrs p.envAddrs).flatMap bytes32)

/-! ## The call -/

/-- The bytes of a vector with their NULs. -/
def readVec (v : Vfs) : List KString → Exec (List (List UInt8))
  | [] => .ret []
  | k :: entries => do
      let m ← v.loadBuf k.buf
      if k.len + 1 ≤ m.len then do
        let rest ← readVec v entries
        .ret (m.read 0 (k.len + 1) :: rest)
      else .undefined

/-- `comm`: the last name of the path, as far as there is room. -/
def commOf (path : CStr) : CStr :=
  let name := (path.reverse.takeWhile (· ≠ slash)).reverse.take 15
  if name = [] then [63] else name

/-- `cmdline`: the strings with their NULs, as far as there is room. -/
def cmdlineOf (args : List (List UInt8)) : List UInt8 :=
  let text := args.flatten.take 255
  text ++ List.replicate (256 - text.length) 0

/-- `while (i < sizeof(exec_path) - 1 && up[i])` -/
def readPath (s : State) (path : Nat) : CStr :=
  (s.bytes path 255).takeWhile (· ≠ 0)

/-- The stack of the task before, unless it is its parent's. -/
def dropOldStack (v : Vfs) (t : Task) (parent : Option Parent) : Exec Vfs :=
  match t.userStackBase with
  | none => .ret v
  | some old =>
      if t.ppid ≠ 0 ∧ parent.any fun p => p.userStackBase = some old then .ret v
      else kfreeBuf v old

/-- The end of `execve`, with the image loaded and the node closed.  The
strings are read before their buffers are freed; `cmdline` is made from them
behind that, when they still hold their bytes, as `kfree` stores into headers
only. -/
def enterImage (s : State) (stack entry clearEnd : Nat) (path : CStr) (argv envv : Vec) :
    Exec (State × Int) := do
  let base := s.place.addr stack
  let args ← readVec s.vfs argv.entries
  let envs ← readVec s.vfs envv.entries
  let m ← s.vfs.loadBuf stack
  let pushed ← pushVectors base m args envs
  let v ← giveUp s.vfs argv envv
  if overflows base pushed then do
    let v ← kfreeBuf v stack
    .ret ({ s with vfs := v }, -1)
  else do
    let m ← writeTable base pushed
    let v := v.setBuf stack m
    match s.task with
    | none => do
        let v ← kfreeBuf v stack
        .ret ({ s with vfs := v }, -1)
    | some t => do
        let v ← dropOldStack v t s.parent
        let t := { t with
          imgSize := clearEnd
          comm := commOf path
          cmdline := cmdlineOf args
          userStackBase := some stack
          userStackTop := stackTop base }
        let sp := tableAddr pushed
        .ret ({ s with vfs := v, task := some t, frame := ⟨entry, sp, sp, 0, 0⟩ }, 0)

/-- A failure with the node and the stack still there. -/
def abandon (s : State) (v : Vfs) (node stack : Nat) (argv envv : Vec) : Exec (State × Int) := do
  let v ← closeNode v (some node)
  let v ← kfreeBuf v stack
  let v ← giveUp v argv envv
  .ret ({ s with vfs := v }, -1)

/-- From the stack on: the headers, the image and the new stack. -/
def loadImage (s : State) (node stack : Nat) (path : CStr) (argv envv : Vec) : Exec (State × Int) := do
  let (header, ret) ← vfsRead s.vfs node 0 52
  if ret ≠ 52 then abandon s s.vfs node stack argv envv
  else
    let h := headerOf header
    let scanned ← scanLoop s.vfs node h h.phnum 0 0
    match scanned with
    | none => abandon s s.vfs node stack argv envv
    | some last =>
        let clearEnd := min last 0x400000
        -- `No load segments`
        if clearEnd = 0 then abandon s s.vfs node stack argv envv
        else do
          let s ← takeSnapshot s
          let mem ← zeroMem s.mem userLoadAddr clearEnd
          let (mem, ok) ← loadLoop s.vfs node h h.phnum 0 mem
          let s := { s with mem := mem }
          if !ok then abandon s s.vfs node stack argv envv
          else do
            let v ← closeNode s.vfs (some node)
            enterImage { s with vfs := v } stack h.entry clearEnd path argv envv

/-- From the end of the `#!` loop on. -/
def startImage (s : State) (script : Script) (envv : Vec) : Exec (State × Int) :=
  match script.node with
  | none => do
      let v ← giveUp s.vfs script.argv envv
      .ret ({ s with vfs := v }, -1)
  | some node =>
      -- `Args too big`
      if tooBig script.argv envv then do
        let v ← closeAndGiveUp s.vfs node script.argv envv
        .ret ({ s with vfs := v }, -1)
      else do
        let (v, p) ← kmallocBytes s.vfs (List.replicate execStackSize 0)
        match p with
        | none => do
            let v ← closeAndGiveUp v node script.argv envv
            .ret ({ s with vfs := v }, -1)
        | some stack => loadImage { s with vfs := v } node stack script.path script.argv envv

def sysExecveImpl (s : State) (path argvU envpU : Nat) : Exec (State × Int) := do
  let (v, argv) ← execCopyVec s s.vfs argvU execMaxArgs
  match argv with
  -- `Bad argv`
  | none => .ret ({ s with vfs := v }, -1)
  | some argv => do
      let (v, envv) ← execCopyVec s v envpU execMaxEnvs
      match envv with
      -- `Bad envp`
      | none => do
          let v ← execFreeVec v argv.entries
          .ret ({ s with vfs := v }, -1)
      | some envv =>
          -- `Args too big`
          if tooBig argv envv then do
            let v ← giveUp v argv envv
            .ret ({ s with vfs := v }, -1)
          else do
            let (v, script) ← scriptLoop s.caller envv 5 v ⟨readPath s path, argv, none⟩
            match script with
            | none => .ret ({ s with vfs := v }, -1)
            | some script => startImage { s with vfs := v } script envv

end LiteBSD.Execve
