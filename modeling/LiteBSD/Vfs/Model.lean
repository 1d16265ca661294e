/-
# `LiteBSD.Vfs.Model` — nodes, data blobs and the file-system calls

The in-memory file system of `src/vfs.c`.  Memory is three stores, one for
each kind of object the code allocates: nodes, data buffers and the counters
that `data_refs` points at.  An address maps to `none` once it is freed, and
a read or write through it is `undefined`; so is one outside a buffer.
`nodes` is the list of the source, as addresses from its head; the root is a
static at address `0` and on no list.

`kmalloc` draws addresses from a supply that never repeats.  What a fresh
block holds, and whether there is one, is up to the oracle `mem`: fresh
memory is NOT zero, `err()` stops the machine when the heap is full, and the
`NULL` that the code checks for is kept as a third outcome.

Timestamps are left out: nothing below reads them.  Path and node arguments
are not `NULL`, as every caller has checked.
-/
import LiteBSD.Vfs.Path
import LiteBSD.Heap.Model

namespace LiteBSD

def sIfchr : Nat := 0x2000
def sIfdir : Nat := 0x4000
def sIfreg : Nat := 0x8000
def sIflnk : Nat := 0xA000

/-- The part of a `struct vfs_node` that names it. -/
structure Label where
  path : CStr
  mode : Nat
  ino : Nat
  refs : Int
  synth : Bool
deriving DecidableEq, Repr

/-- The part of a `struct vfs_node` that holds its data. -/
structure Blob where
  data : Option Nat
  size : Nat
  capacity : Nat
  dataRefs : Option Nat
deriving DecidableEq, Repr

/-- `struct vfs_node`, less its timestamps and its `next` link. -/
structure Node extends Label, Blob
deriving DecidableEq, Repr

/-- A block of `len` bytes. -/
structure Buf where
  len : Nat
  byte : Nat → UInt8

/-- What `kmalloc` does at a call of an ordinary size. -/
inductive AllocOutcome where
  | block
  | null
  | oom
deriving DecidableEq, Repr

/-- The part of memory allocation the file system does not decide. -/
structure Oracle where
  outcome : Nat → AllocOutcome
  junk : Nat → Nat → UInt8

structure Vfs where
  nodes : List Nat
  node : Nat → Option Node
  buf : Nat → Option Buf
  cell : Nat → Option Int
  nextIno : Nat
  nextObj : Nat
  /-- The framebuffer behind `/dev/fb0`, when it is active. -/
  fb : Option Buf
  mem : Oracle

/-- Who calls: the directory of the current task, the pids on the ready
queue, and the texts of the generated files at this moment. -/
structure Caller where
  cwd : CStr
  pids : List Nat
  gen : SynthId → Option (List UInt8)

def Caller.resolve (c : Caller) (path : CStr) : CStr :=
  vfsResolvePath (if c.cwd = [] then [slash] else c.cwd) path

/-- `&root` -/
def rootAddr : Nat := 0

/-- `sizeof(struct vfs_node)` -/
def nodeSize : Nat := 316

def rootNode : Node :=
  { path := [slash], data := none, size := 0, capacity := 0, mode := sIfdir, ino := 1, refs := 1,
    synth := false, dataRefs := none }

/-! ## Memory -/

namespace Vfs

def kmalloc (v : Vfs) (size : Nat) : Exec (Vfs × Option Nat) :=
  if size = 0 then .ret (v, none)
  else if size > heapSize - headerSize then .panic "Allocation too large."
  else
    match v.mem.outcome v.nextObj with
    | .block => .ret ({ v with nextObj := v.nextObj + 1 }, some v.nextObj)
    | .null => .ret ({ v with nextObj := v.nextObj + 1 }, none)
    | .oom => .panic "Out of memory."

def load (v : Vfs) (a : Nat) : Exec Node :=
  match v.node a with
  | some n => .ret n
  | none => .undefined

def setNode (v : Vfs) (a : Nat) (n : Node) : Vfs :=
  { v with node := Function.update v.node a (some n) }

def freeNode (v : Vfs) (a : Nat) : Vfs :=
  { v with node := Function.update v.node a none }

def loadCell (v : Vfs) (c : Nat) : Exec Int :=
  match v.cell c with
  | some k => .ret k
  | none => .undefined

def setCell (v : Vfs) (c : Nat) (k : Int) : Vfs :=
  { v with cell := Function.update v.cell c (some k) }

def freeCell (v : Vfs) (c : Nat) : Vfs :=
  { v with cell := Function.update v.cell c none }

def loadBuf (v : Vfs) (b : Nat) : Exec Buf :=
  match v.buf b with
  | some m => .ret m
  | none => .undefined

def setBuf (v : Vfs) (b : Nat) (m : Buf) : Vfs :=
  { v with buf := Function.update v.buf b (some m) }

/-- `if (data) kfree(data)` -/
def freeBuf (v : Vfs) : Option Nat → Vfs
  | none => v
  | some b => { v with buf := Function.update v.buf b none }

/-- A `kmalloc` for data: the block comes as it was left. -/
def kmallocBuf (v : Vfs) (size : Nat) : Exec (Vfs × Option Nat) := do
  let (v, p) ← v.kmalloc size
  match p with
  | none => .ret (v, none)
  | some b => .ret (v.setBuf b ⟨size, v.mem.junk b⟩, some b)

end Vfs

/-- The bytes `src` stored from `offset` on. -/
def Buf.write (m : Buf) (offset : Nat) (src : List UInt8) : Buf :=
  { m with byte := fun i => if offset ≤ i then (src[i - offset]?).getD (m.byte i) else m.byte i }

/-- `for (i = 0; i < n; i++) dst[i] = src[i]` -/
def Buf.copy (dst src : Buf) (n : Nat) : Buf :=
  { dst with byte := fun i => if i < n then src.byte i else dst.byte i }

/-- `for (i = from; i < to; i++) data[i] = 0` -/
def Buf.zero (m : Buf) (first last : Nat) : Buf :=
  { m with byte := fun i => if first ≤ i ∧ i < last then 0 else m.byte i }

/-- The `n` bytes from `offset` on. -/
def Buf.read (m : Buf) (offset n : Nat) : List UInt8 :=
  (List.range n).map fun i => m.byte (offset + i)

/-- The string at `data`, at most `room` bytes of it, `none` when that runs
out of the block. -/
def Buf.readStr (m : Buf) : Nat → Nat → Option CStr
  | _, 0 => some []
  | i, room + 1 =>
      if i ≥ m.len then none
      else if m.byte i = 0 then some []
      else (m.readStr (i + 1) room).map (m.byte i :: ·)

namespace Vfs

def storeBytes (v : Vfs) (data : Option Nat) (offset : Nat) (src : List UInt8) : Exec Vfs :=
  if src = [] then .ret v
  else
    match data with
    | none => .undefined
    | some b => do
        let m ← v.loadBuf b
        if offset + src.length ≤ m.len then .ret (v.setBuf b (m.write offset src)) else .undefined

def copyBytes (v : Vfs) (dst : Nat) (data : Option Nat) (n : Nat) : Exec Vfs :=
  if n = 0 then .ret v
  else
    match data with
    | none => .undefined
    | some b => do
        let src ← v.loadBuf b
        let m ← v.loadBuf dst
        if n ≤ src.len ∧ n ≤ m.len then .ret (v.setBuf dst (m.copy src n)) else .undefined

def zeroBytes (v : Vfs) (data : Option Nat) (first last : Nat) : Exec Vfs :=
  if last ≤ first then .ret v
  else
    match data with
    | none => .undefined
    | some b => do
        let m ← v.loadBuf b
        if last ≤ m.len then .ret (v.setBuf b (m.zero first last)) else .undefined

end Vfs

/-! ## Lookup -/

def isSymlinkNode (n : Node) : Bool := n.mode &&& 0xF000 = sIflnk

/-- `node->mode & S_IFDIR` -/
def Node.dirBit (n : Node) : Bool := n.mode &&& sIfdir ≠ 0

def isDirNode (n : Node) : Bool := n.dirBit && !isSymlinkNode n

/-- Is `path` the path of the node at `a`? -/
def Vfs.hasPath (v : Vfs) (path : CStr) (a : Nat) : Bool :=
  (v.node a).any fun n => n.path = path

def findNode (v : Vfs) (path : CStr) : Option Nat :=
  if path = [slash] then some rootAddr else v.nodes.find? (v.hasPath path)

/-- The path a link at `resolved` with the text `target` leads to. -/
def linkTarget (resolved target : CStr) : CStr :=
  if target.head? = some slash then vfsResolvePath [slash] target
  else
    let parent := pathParentDir resolved
    let joined := if parent.getLast? = some slash then parent else parent ++ [slash]
    vfsResolvePath [slash] ((joined ++ target).take 511)

/-- The loop of `follow_symlinks`, with the depths still allowed. -/
def followLoop (v : Vfs) : Nat → CStr → Exec (Option CStr)
  | 0, _ => .ret none
  | depth + 1, resolved =>
      match findNode v resolved with
      | none => .ret (some resolved)
      | some a => do
          let n ← v.load a
          if !isSymlinkNode n then .ret (some resolved)
          else
            match n.data with
            | none => .ret none
            | some b => do
                let m ← v.loadBuf b
                match m.readStr 0 (pathMax - 1) with
                | none => .undefined
                | some [] => .ret none
                | some target => followLoop v depth (linkTarget resolved target)

/-- `follow_symlinks`: the path it leaves behind, `none` for `-1`. -/
def followSymlinks (v : Vfs) (resolved : CStr) : Exec (Option CStr) :=
  followLoop v 8 resolved

/-! ## Data blobs -/

/-- Drop the hold of the node at `a` on a shared blob. -/
def dataRelease (v : Vfs) (a : Nat) : Exec Vfs := do
  let n ← v.load a
  match n.dataRefs with
  | none => .ret v
  | some c => do
      let refs ← v.loadCell c
      let v := v.setCell c (refs - 1)
      let v := if refs - 1 ≤ 0 then (v.freeBuf n.data).freeCell c else v
      .ret (v.setNode a { n with data := none, dataRefs := none, synth := false })

/-- The new buffer of `data_cow`, `none` for a failed `kmalloc`. -/
def cowCopy (v : Vfs) (n : Node) : Exec (Vfs × Option (Option Nat)) :=
  if n.capacity > 0 then do
    let (v, p) ← v.kmallocBuf n.capacity
    match p with
    | none => .ret (v, none)
    | some b => do
        let v ← v.copyBytes b n.data n.size
        .ret (v, some (some b))
  else .ret (v, some none)

/-- Give the node at `a` a blob of its own before it is changed. -/
def dataCow (v : Vfs) (a : Nat) : Exec (Vfs × Int) := do
  let n ← v.load a
  match n.dataRefs with
  | none => .ret (v, 0)
  | some c => do
      let refs ← v.loadCell c
      if refs ≤ 1 then .ret (v, 0)
      else
        let v := v.setCell c (refs - 1)
        let (v, copied) ← cowCopy v n
        match copied with
        | none => .ret (v, -1)
        | some data => do
            let (v, p) ← v.kmalloc 4
            match p with
            | none => .ret (v.freeBuf data, -1)
            | some c' =>
                let v := v.setCell c' 1
                .ret (v.setNode a { n with data := data, dataRefs := some c' }, 0)

/-- The counter that a second holder of the blob of `target` takes, made
when there is none yet. -/
def shareCell (v : Vfs) (target : Nat) : Exec (Vfs × Option Nat) := do
  let t ← v.load target
  match t.dataRefs with
  | some c => .ret (v, some c)
  | none => do
      let (v, p) ← v.kmalloc 4
      match p with
      | none => .ret (v, none)
      | some c => .ret ((v.setNode target { t with dataRefs := some c }).setCell c 1, some c)

/-- Let the node at `a` hold the blob of `target`. -/
def dataShare (v : Vfs) (a target : Nat) : Exec (Vfs × Int) := do
  let t ← v.load target
  if t.dirBit then .ret (v, -1)
  else
    let (v, p) ← shareCell v target
    match p with
    | none => .ret (v, -1)
    | some c => do
        let refs ← v.loadCell c
        let v := v.setCell c (refs + 1)
        let t ← v.load target
        let n ← v.load a
        let n := { n with
          data := t.data, size := t.size, capacity := t.capacity, mode := t.mode,
          dataRefs := some c }
        .ret (v.setNode a n, 0)

/-! ## Opening and closing -/

/-- `flags & 0x40` -/
def oCreat (flags : Nat) : Bool := flags.testBit 6

/-- What `synth_open` stores into a node with `len` bytes of text. -/
def synthNode (resolved : CStr) (sid : SynthId) (data : Option Nat) (len : Nat) : Node :=
  { path := resolved.take (pathMax - 1), data := data, size := len, capacity := len,
    mode := if sid.isDir then sIfdir else sIfreg, ino := synthIno sid, refs := 1, synth := true,
    dataRefs := none }

/-- A synthetic node, which is on no list. -/
def synthOpen (v : Vfs) (c : Caller) (resolved : CStr) (sid : SynthId) :
    Exec (Vfs × Option Nat) :=
  match if sid.isDir then some [] else c.gen sid with
  | none => .ret (v, none)
  | some content => do
      let (v, p) ← v.kmalloc nodeSize
      match p with
      | none => .ret (v, none)
      | some a => do
          let (v, data) ← v.kmallocBuf content.length
          if content ≠ [] ∧ data = none then .ret (v, none)
          else do
            let v ← v.storeBytes data 0 content
            .ret (v.setNode a (synthNode resolved sid data content.length), some a)

/-- The end of every creation: the node is filled in, numbered and put at
the head of the list. -/
def linkIn (v : Vfs) (a : Nat) (n : Node) : Vfs :=
  { v.setNode a { n with ino := v.nextIno } with
    nodes := a :: v.nodes
    nextIno := u32 (v.nextIno + 1) }

/-- What a creation stores into a node with no data, but for its number. -/
def freshNode (resolved : CStr) (mode : Nat) : Node :=
  { path := resolved, data := none, size := 0, capacity := 0, mode := mode, ino := 0, refs := 1,
    synth := false, dataRefs := none }

/-- `string_length(resolved)` is 1 to 255. -/
def lengthOk (resolved : CStr) : Bool :=
  stringLength resolved ≠ 0 ∧ stringLength resolved < 256

/-- The node `vfs_open` settles on for the node `a` it found at `resolved`;
`none` when the call fails here. -/
def openTarget (v : Vfs) (resolved : CStr) (flags a : Nat) : Exec (Option Nat) := do
  let n ← v.load a
  if !isSymlinkNode n then .ret (some a)
  else
    let followed ← followSymlinks v resolved
    match followed with
    | none => .ret none
    | some followed =>
        match findNode v followed with
        | some t => .ret (some t)
        | none => if oCreat flags then .ret (some a) else .ret none

/-- The creating end of `vfs_open`. -/
def openCreate (v : Vfs) (resolved : CStr) : Exec (Vfs × Option Nat) :=
  if lengthOk resolved then do
    let (v, p) ← v.kmalloc nodeSize
    match p with
    | none => .ret (v, none)
    | some a => .ret (linkIn v a (freshNode resolved sIfreg), some a)
  else .ret (v, none)

def vfsOpen (v : Vfs) (c : Caller) (path : CStr) (flags : Nat) : Exec (Vfs × Option Nat) :=
  let resolved := c.resolve path
  match synthLookup c.pids resolved with
  | some sid => if oCreat flags then .ret (v, none) else synthOpen v c resolved sid
  | none =>
      match findNode v resolved with
      | some a => do
          let target ← openTarget v resolved flags a
          match target with
          | none => .ret (v, none)
          | some t => do
              let n ← v.load t
              .ret (v.setNode t { n with refs := n.refs + 1 }, some t)
      | none => if oCreat flags then openCreate v resolved else .ret (v, none)

def vfsClose (v : Vfs) (a : Nat) : Exec (Vfs × Int) := do
  let n ← v.load a
  let n := if a ≠ rootAddr ∧ n.refs > 0 then { n with refs := n.refs - 1 } else n
  let v := v.setNode a n
  if n.synth ∧ a ≠ rootAddr ∧ n.refs ≤ 0 then .ret ((v.freeBuf n.data).freeNode a, 0)
  else .ret (v, 0)

/-! ## Reading and writing -/

def devNull : CStr := str "/dev/null"
def devZero : CStr := str "/dev/zero"
def devFb0 : CStr := str "/dev/fb0"

/-- `vfs_read`: the bytes it stores and what it returns. -/
def vfsRead (v : Vfs) (a offset count : Nat) : Exec (List UInt8 × Int) := do
  let n ← v.load a
  if n.dirBit then .ret ([], -1)
  else if isSymlinkNode n then .ret ([], -1)
  else if n.path = devNull then .ret ([], 0)
  else if n.path = devZero then .ret (List.replicate count 0, int32 count)
  else if n.path = devFb0 then
    match v.fb with
    | none => .ret ([], -1)
    | some m =>
        if offset ≥ m.len then .ret ([], 0)
        else
          let count := min count (m.len - offset)
          .ret (m.read offset count, int32 count)
  else if offset ≥ n.size then .ret ([], 0)
  else
    let count := min count (n.size - offset)
    if count = 0 then .ret ([], 0)
    else
      match n.data with
      | none => .undefined
      | some b => do
          let m ← v.loadBuf b
          if offset + count ≤ m.len then .ret (m.read offset count, int32 count) else .undefined

/-- `while (capacity < required) capacity *= 2`.  After 32 rounds the word
is `0` and stays it, so that fuel left over means the loop ended. -/
def growLoop : Nat → Nat → Nat → Option Nat
  | 0, _, _ => none
  | fuel + 1, capacity, required =>
      if capacity < required then growLoop fuel (u32 (capacity * 2)) required else some capacity

/-- Room for `required` bytes in the buffer of the node at `a`; `-1` when
there is no memory. -/
def growData (v : Vfs) (a required : Nat) : Exec (Vfs × Int) := do
  let n ← v.load a
  if required > n.capacity then
    match growLoop 33 (if n.capacity ≠ 0 then n.capacity else 256) required with
    | none => .hang
    | some capacity => do
        let (v, p) ← v.kmallocBuf capacity
        match p with
        | none => .ret (v, -1)
        | some b => do
            let v ← v.copyBytes b n.data n.size
            .ret ((v.freeBuf n.data).setNode a { n with data := some b, capacity := capacity }, 0)
  else .ret (v, 0)

/-- `vfs_write` on a node that is not a device. -/
def writeData (v : Vfs) (a offset : Nat) (buffer : List UInt8) : Exec (Vfs × Int) := do
  let (v, ret) ← dataCow v a
  if ret ≠ 0 then .ret (v, -1)
  else
    let (v, ret) ← dataCow v a
    if ret ≠ 0 then .ret (v, -1)
    else
      let required := u32 (offset + buffer.length)
      if required < offset then .ret (v, -1)
      else
        let (v, ret) ← growData v a required
        if ret ≠ 0 then .ret (v, -1)
        else
          let n ← v.load a
          let v ← v.storeBytes n.data offset buffer
          let v := if required > n.size then v.setNode a { n with size := required } else v
          .ret (v, int32 buffer.length)

def vfsWrite (v : Vfs) (a offset : Nat) (buffer : List UInt8) : Exec (Vfs × Int) := do
  let n ← v.load a
  if n.dirBit then .ret (v, -1)
  else if isSymlinkNode n then .ret (v, -1)
  else if n.synth then .ret (v, -1)
  else if n.path = devNull then .ret (v, int32 buffer.length)
  else if n.path = devZero then .ret (v, int32 buffer.length)
  else if n.path = devFb0 then
    match v.fb with
    | none => .ret (v, -1)
    | some m =>
        if offset ≥ m.len then .ret (v, 0)
        else
          let count := min buffer.length (m.len - offset)
          .ret ({ v with fb := some (m.write offset (buffer.take count)) }, int32 count)
  else writeData v a offset buffer

def vfsTruncate (v : Vfs) (a length : Nat) : Exec (Vfs × Int) := do
  let n ← v.load a
  if n.dirBit ∨ isSymlinkNode n then .ret (v, -1)
  else if n.synth then .ret (v, -1)
  else
    let (v, ret) ← dataCow v a
    if ret ≠ 0 then .ret (v, -1)
    else
      let n ← v.load a
      if length < n.size then .ret (v.setNode a { n with size := length }, 0)
      else if length = n.size then .ret (v, 0)
      else
        let (v, ret) ← growData v a length
        if ret ≠ 0 then .ret (v, -1)
        else
          let n ← v.load a
          let v ← v.zeroBytes n.data n.size length
          .ret (v.setNode a { n with size := length }, 0)

/-! ## Calls on paths -/

/-- `struct stat`, the fields `fill_stat` takes from a node. -/
structure Stat where
  size : Nat
  mode : Nat
  ino : Nat
deriving DecidableEq, Repr

def fillStat (v : Vfs) (n : Node) : Stat :=
  if n.path = devFb0 then
    { size := (v.fb.map Buf.len).getD 0, mode := sIfchr ||| 0o666, ino := n.ino }
  else { size := n.size, mode := n.mode, ino := n.ino }

def synthStat (c : Caller) (sid : SynthId) : Option Stat :=
  if sid.isDir then some { size := 0, mode := sIfdir, ino := synthIno sid }
  else (c.gen sid).map fun content =>
    { size := content.length, mode := sIfreg, ino := synthIno sid }

def vfsStat (v : Vfs) (c : Caller) (path : CStr) : Exec (Option Stat) :=
  let resolved := c.resolve path
  match synthLookup c.pids resolved with
  | some sid => .ret (synthStat c sid)
  | none => do
      let followed ← followSymlinks v resolved
      match followed.bind (findNode v) with
      | none => .ret none
      | some a => do
          let n ← v.load a
          let st := fillStat v n
          .ret (some (if n.path = devNull ∨ n.path = devZero then { st with size := 0 } else st))

def vfsLstat (v : Vfs) (c : Caller) (path : CStr) : Exec (Option Stat) :=
  let resolved := c.resolve path
  match synthLookup c.pids resolved with
  | some sid => .ret (synthStat c sid)
  | none =>
      match findNode v resolved with
      | none => .ret none
      | some a => do
          let n ← v.load a
          .ret (some (fillStat v n))

def vfsFstat (v : Vfs) (a : Nat) : Exec Stat := do
  let n ← v.load a
  .ret (fillStat v n)

/-- Taking the node at `a` off the list and freeing it with its data. -/
def unlinkNode (v : Vfs) (a : Nat) : Exec Vfs := do
  let n ← v.load a
  let v := { v with nodes := v.nodes.erase a }
  let v ← dataRelease v a
  let v := if n.dataRefs = none then v.freeBuf n.data else v
  .ret (v.freeNode a)

def vfsUnlink (v : Vfs) (c : Caller) (path : CStr) : Exec (Vfs × Int) :=
  let resolved := c.resolve path
  if (synthLookup c.pids resolved).isSome then .ret (v, -1)
  else if resolved = [slash] then .ret (v, -1)
  else
    match v.nodes.find? (v.hasPath resolved) with
    | none => .ret (v, -1)
    | some a => do
        let v ← unlinkNode v a
        .ret (v, 0)

/-- The path is absolute and of a length the node can hold. -/
def pathOk (resolved : CStr) : Bool :=
  resolved.head? = some slash ∧ lengthOk resolved

def vfsMkdir (v : Vfs) (c : Caller) (path : CStr) : Exec (Vfs × Int) :=
  let resolved := c.resolve path
  if (synthLookup c.pids resolved).isSome then .ret (v, -1)
  else if (findNode v resolved).isSome then .ret (v, -1)
  else if !pathOk resolved then .ret (v, -1)
  else do
    let (v, p) ← v.kmalloc nodeSize
    match p with
    | none => .ret (v, -1)
    | some a => .ret (linkIn v a (freshNode resolved sIfdir), 0)

/-- The end of `vfs_link`, once the checks are passed. -/
def linkNode (v : Vfs) (resolved : CStr) (target : Nat) : Exec (Vfs × Int) := do
  let t ← v.load target
  let (v, p) ← v.kmalloc nodeSize
  match p with
  | none => .ret (v, -1)
  | some a => do
      let ino := v.nextIno
      let v := { v.setNode a { freshNode resolved t.mode with ino := ino } with
        nextIno := u32 (v.nextIno + 1) }
      let (v, ret) ← dataShare v a target
      if ret ≠ 0 then .ret (v.freeNode a, -1)
      else .ret ({ v with nodes := a :: v.nodes }, 0)

def vfsLink (v : Vfs) (c : Caller) (path targetPath : CStr) : Exec (Vfs × Int) :=
  let resolved := c.resolve path
  let targetResolved := c.resolve targetPath
  if (synthLookup c.pids resolved).isSome then .ret (v, -1)
  else if (synthLookup c.pids targetResolved).isSome then .ret (v, -1)
  else
    match findNode v targetResolved with
    | none => .ret (v, -1)
    | some target => do
        let t ← v.load target
        if t.dirBit then .ret (v, -1)
        else if (findNode v resolved).isSome then .ret (v, -1)
        else if !pathOk resolved then .ret (v, -1)
        else linkNode v resolved target

/-- The end of `vfs_symlink`, once the checks are passed. -/
def symlinkNode (v : Vfs) (resolved target : CStr) : Exec (Vfs × Int) := do
  let (v, p) ← v.kmalloc nodeSize
  match p with
  | none => .ret (v, -1)
  | some a => do
      let (v, data) ← v.kmallocBuf (target.length + 1)
      match data with
      | none => .ret (v, -1)
      | some b => do
          let v ← v.storeBytes (some b) 0 (target ++ [0])
          let node := { freshNode resolved sIflnk with
            data := some b, size := target.length, capacity := target.length + 1 }
          .ret (linkIn v a node, 0)

def vfsSymlink (v : Vfs) (c : Caller) (target linkpath : CStr) : Exec (Vfs × Int) :=
  let resolved := c.resolve linkpath
  if (synthLookup c.pids resolved).isSome then .ret (v, -1)
  else if (findNode v resolved).isSome then .ret (v, -1)
  else if !pathOk resolved then .ret (v, -1)
  else
    let target := target.take (pathMax - 1)
    if target = [] then .ret (v, -1) else symlinkNode v resolved target

/-- The path of a node below the directory `old` once that is `new`. -/
def rebase (old new path : CStr) : CStr :=
  (new.take (pathMax - 1) ++ path.drop old.length).take (pathMax - 1)

/-- The loop over the list that moves what is below a renamed directory. -/
def moveBelow (v : Vfs) (a : Nat) (old new : CStr) : Vfs :=
  { v with
    node := fun x => (v.node x).map fun n =>
      if x ∈ v.nodes ∧ x ≠ a ∧ isBelow old n.path then { n with path := rebase old new n.path }
      else n }

/-- The end of `vfs_rename`, once the checks are passed. -/
def renameNode (v : Vfs) (a : Nat) (old new : CStr) : Exec (Vfs × Int) := do
  let n ← v.load a
  let wasDir := isDirNode n || n.dirBit
  let v := v.setNode a { n with path := new.take (pathMax - 1) }
  if wasDir then .ret (moveBelow v a old new, 0) else .ret (v, 0)

def vfsRename (v : Vfs) (c : Caller) (oldpath newpath : CStr) : Exec (Vfs × Int) :=
  let old := c.resolve oldpath
  let new := c.resolve newpath
  if (synthLookup c.pids old).isSome then .ret (v, -1)
  else if (synthLookup c.pids new).isSome then .ret (v, -1)
  else if old = [slash] ∨ new = [slash] then .ret (v, -1)
  else if old = new then .ret (v, 0)
  else
    match findNode v old with
    | none => .ret (v, -1)
    | some a => if (findNode v new).isSome then .ret (v, -1) else renameNode v a old new

/-- Is there a node below `resolved`? -/
def Vfs.hasChild (v : Vfs) (resolved : CStr) : Bool :=
  v.nodes.any fun a => (v.node a).any fun n => isBelow resolved n.path

def vfsRmdir (v : Vfs) (c : Caller) (path : CStr) : Exec (Vfs × Int) :=
  let resolved := c.resolve path
  if resolved = [slash] then .ret (v, -1)
  else
    match findNode v resolved with
    | none => .ret (v, -1)
    | some a => do
        let n ← v.load a
        if !n.dirBit ∨ isSymlinkNode n then .ret (v, -1)
        else if v.hasChild resolved then .ret (v, -1)
        else vfsUnlink v c path

/-- `sys_unlink`: a directory is refused. -/
def sysUnlink (v : Vfs) (c : Caller) (path : CStr) : Exec (Vfs × Int) := do
  let st ← vfsLstat v c path
  if st.any fun st => st.mode &&& 0x4000 ≠ 0 ∧ st.mode &&& 0xF000 ≠ 0xA000 then .ret (v, -1)
  else vfsUnlink v c path

/-! ## The file system as a state machine -/

/-- The calls, each with its arguments. -/
inductive VfsCall where
  | openPath (c : Caller) (path : CStr) (flags : Nat)
  | close (a : Nat)
  | write (a offset : Nat) (buffer : List UInt8)
  | truncate (a length : Nat)
  | unlink (c : Caller) (path : CStr)
  | mkdir (c : Caller) (path : CStr)
  | link (c : Caller) (path targetPath : CStr)
  | symlink (c : Caller) (target linkpath : CStr)
  | rename (c : Caller) (oldpath newpath : CStr)
  | rmdir (c : Caller) (path : CStr)

/-- The state a call leaves behind. -/
def vfsCall (v : Vfs) : VfsCall → Exec Vfs
  | .openPath c path flags => do let (v, _) ← vfsOpen v c path flags; .ret v
  | .close a => do let (v, _) ← vfsClose v a; .ret v
  | .write a offset buffer => do let (v, _) ← vfsWrite v a offset buffer; .ret v
  | .truncate a length => do let (v, _) ← vfsTruncate v a length; .ret v
  | .unlink c path => do let (v, _) ← vfsUnlink v c path; .ret v
  | .mkdir c path => do let (v, _) ← vfsMkdir v c path; .ret v
  | .link c path targetPath => do let (v, _) ← vfsLink v c path targetPath; .ret v
  | .symlink c target linkpath => do let (v, _) ← vfsSymlink v c target linkpath; .ret v
  | .rename c oldpath newpath => do let (v, _) ← vfsRename v c oldpath newpath; .ret v
  | .rmdir c path => do let (v, _) ← vfsRmdir v c path; .ret v

/-- The file system before the first call. -/
def emptyVfs (mem : Oracle) (fb : Option Buf) : Vfs :=
  { nodes := [], node := Function.update (fun _ => none) rootAddr (some rootNode),
    buf := fun _ => none, cell := fun _ => none, nextIno := 2, nextObj := 1, fb := fb, mem := mem }

end LiteBSD
