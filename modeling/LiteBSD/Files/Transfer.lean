/-
# `LiteBSD.Files.Transfer` — `sys_read` and `sys_write`

Both look at the NUMBER of the descriptor first: 1 and 2 are written to the
console and 0 is read from it, whatever the slot holds.  Then they look at
the file: a socket, an end of a pipe, a node, or none of these, which is the
console again.

A pipe that is full (or empty, with a writer left) makes the caller wait, and
with one task running at a time nobody comes to change that.
-/
import LiteBSD.Files.Model

namespace LiteBSD.Files

open Lib

/-! ## Pipes -/

/-- The loop of `sys_write` over a pipe: what is left and what is written. -/
def pipeWrite (q : Pipe) : List UInt8 → Nat → Exec (Pipe × Nat)
  | [], written => .ret (q, written)
  | c :: rest, written =>
      if q.ring.count ≥ pipeSize then if q.nonblocking then .ret (q, written) else .hang
      else pipeWrite { q with ring := q.ring.store pipeSize c } rest (written + 1)

/-- The loop of `sys_read` over a pipe, with the bytes still wanted. -/
def pipeRead (q : Pipe) : Nat → List UInt8 → Exec (Pipe × List UInt8)
  | 0, bytes => .ret (q, bytes)
  | room + 1, bytes =>
      if q.ring.count = 0 then
        if q.writeRef ≤ 0 ∨ q.nonblocking then .ret (q, bytes) else .hang
      else
        let (c, ring) := q.ring.take pipeSize 1
        pipeRead { q with ring := ring } room (bytes ++ c)

/-! ## Writing -/

/-- Where a write to the file `x` on the node `n` starts. -/
def writeOffset (v : Vfs) (n : Nat) (x : File) : Exec Nat :=
  if oAppend x.flags then startOffset v n x.flags else .ret x.offset

/-- `sys_write` on the file `x` at `f`. -/
def fileWrite (k : Kernel) (f : Nat) (x : File) (buf : List UInt8) : Exec (Kernel × Int) :=
  match x.sock, x.pipe, x.node with
  | .slot i, _, _ =>
      let (net, r) := sockSendto k.net i buf 0 0
      .ret ({ k with net := net }, r)
  | .wild, _, _ => .undefined
  | .null, some p, _ =>
      match k.pipe p with
      | none => .undefined
      | some q => do
          let (q, written) ← pipeWrite q buf 0
          .ret ({ k with pipe := Function.update k.pipe p (some q) },
            if written = 0 ∧ buf.length > 0 then -35 else int32 written)
  | .null, none, some n => do
      let offset ← writeOffset k.vfs n x
      let (v, written) ← vfsWrite k.vfs n offset buf
      let offset := if written > 0 then u32 (offset + written.toNat) else offset
      .ret ({ k with vfs := v }.setFile f { x with offset := offset }, written)
  | .null, none, none => .ret (k, -1)

/-- Is the file nothing but the console? -/
def File.bare (x : File) : Bool := x.node = none ∧ x.pipe = none ∧ x.sock = .null

/-- Does `sys_write` go to the console? -/
def writesConsole (k : Kernel) (t fd : Nat) : Exec Bool :=
  if fd = 1 ∨ fd = 2 then .ret true
  else
    match k.fdAt t fd with
    | none => .ret false
    | some f => do
        let x ← k.load f
        .ret x.bare

/-- `sys_write`; the buffer is `none` when it is `NULL` or not the user's. -/
def sysWrite (k : Kernel) (t fd : Nat) (buffer : Option (List UInt8)) : Exec (Kernel × Int) :=
  match buffer with
  | none => .ret (k, -1)
  | some buf => do
      let console ← writesConsole k t fd
      if console then .ret ({ k with con := consoleWrite k.con buf }, int32 buf.length)
      else
        match k.fdAt t fd with
        | none => .ret (k, -1)
        | some f => do
            let x ← k.load f
            fileWrite k f x buf

/-! ## Reading -/

def devTty : CStr := str "/dev/tty"
def devConsole : CStr := str "/dev/console"

def vfsIsTty (v : Vfs) (n : Nat) : Exec Bool := do
  let node ← v.load n
  .ret (node.path = devTty ∨ node.path = devConsole)

def isConsoleFd (k : Kernel) (t fd : Nat) : Exec Bool :=
  match k.fdAt t fd with
  | none => .ret false
  | some f => do
      let x ← k.load f
      if x.pipe ≠ none then .ret false
      else
        match x.node with
        | none => .ret true
        | some n => vfsIsTty k.vfs n

/-- The user's buffer with `bytes` at its front. -/
def overlay (bytes : List UInt8) (buf : Nat → UInt8) : Nat → UInt8 :=
  fun i => (bytes[i]?).getD (buf i)

/-- `sys_read` on the file `x` at `f`: what is stored, and the result. -/
def fileRead (k : Kernel) (f : Nat) (x : File) (count : Nat) :
    Exec (Kernel × List UInt8 × Int) :=
  match x.sock, x.pipe, x.node with
  | .slot i, _, _ =>
      let (net, bytes, r) := sockRecvfrom k.net i count
      .ret ({ k with net := net }, bytes, r)
  | .wild, _, _ => .undefined
  | .null, some p, _ =>
      match k.pipe p with
      | none => .undefined
      | some q => do
          let (q, bytes) ← pipeRead q count []
          .ret ({ k with pipe := Function.update k.pipe p (some q) }, bytes,
            if bytes = [] ∧ q.writeRef > 0 then -35 else int32 bytes.length)
  | .null, none, some n => do
      let (bytes, r) ← vfsRead k.vfs n x.offset count
      let offset := if r > 0 then u32 (x.offset + r.toNat) else x.offset
      .ret (k.setFile f { x with offset := offset }, bytes, r)
  | .null, none, none => .ret (k, [], -1)

/-- Does `sys_read` go to the console? -/
def readsConsole (k : Kernel) (t fd : Nat) : Exec Bool :=
  if fd = 0 then .ret true else isConsoleFd k t fd

/-- `sys_read` of `count` bytes; `valid` unless the buffer is `NULL` or not
the user's. -/
def sysRead (k : Kernel) (t fd : Nat) (valid : Bool) (buf : Nat → UInt8) (count : Nat) :
    Exec (Kernel × (Nat → UInt8) × Int) :=
  if !valid ∨ count = 0 then .ret (k, buf, -1)
  else do
    let console ← readsConsole k t fd
    if console then do
      let (con, buf, r) ← consoleRead k.con buf count
      .ret ({ k with con := con }, buf, r)
    else
      match k.fdAt t fd with
      | none => .ret (k, buf, -1)
      | some f => do
          let x ← k.load f
          let (k, bytes, r) ← fileRead k f x count
          .ret (k, overlay bytes buf, r)

end LiteBSD.Files
