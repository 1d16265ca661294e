/-
# `LiteBSD.Files.Console` — reading the keyboard and printing

The console half of `sys_read` in `src/syscall.c`: single keys in raw mode, an
edited line in canonical mode.  `typed` are the keys in the keyboard ring,
`coming` those that are pressed while somebody waits in `getchar`; a reader
that waits for more than that waits for ever.  What `print_char` is given is
recorded, not drawn.

The user's buffer is a function of the index, before and after: a key that
was erased again has left its byte there.
-/
import Mathlib.Logic.Function.Basic
import LiteBSD.Exec

namespace LiteBSD

/-- What reaches the screen. -/
inductive Shown where
  | char (c : UInt8)
  | clear
deriving DecidableEq, Repr

structure Console where
  canonical : Bool
  echo : Bool
  vmin : Nat
  typed : List UInt8
  coming : List UInt8
  out : List Shown
deriving DecidableEq, Repr

namespace Console

def printChar (con : Console) (c : UInt8) : Console :=
  { con with out := con.out ++ [.char c] }

/-- `if (cons_echo_on()) print_char(c, ...)` -/
def echoChar (con : Console) (c : UInt8) : Console :=
  if con.echo then con.printChar c else con

/-- The characters `"\b \b"`, `n` times. -/
def echoErase (con : Console) : Nat → Console
  | 0 => con
  | n + 1 => echoErase (((con.echoChar 8).echoChar 32).echoChar 8) n

/-- `for (k = 0; k < i; k++) print_char(buf[k], ...)` -/
def echoLine (con : Console) (buf : Nat → UInt8) (i : Nat) : Console :=
  (List.range i).foldl (fun con k => con.echoChar (buf k)) con

def getchar (con : Console) : Exec (Console × UInt8) :=
  match con.typed, con.coming with
  | c :: rest, _ => .ret ({ con with typed := rest }, c)
  | [], c :: rest => .ret ({ con with coming := rest }, c)
  | [], [] => .hang

end Console

/-! ## Raw mode -/

/-- The loop over `keyboard_trygetc`, with the room that is left. -/
def rawLoop : Nat → Console → (Nat → UInt8) → Nat → Console × (Nat → UInt8) × Nat
  | 0, con, buf, n => (con, buf, n)
  | room + 1, con, buf, n =>
      match con.typed with
      | [] => (con, buf, n)
      | c :: rest =>
          rawLoop room ({ con with typed := rest }.echoChar c) (Function.update buf n c) (n + 1)

/-- `VMIN` not 0: wait for the first key. -/
def rawFirst (con : Console) (buf : Nat → UInt8) : Exec (Console × (Nat → UInt8) × Nat) :=
  if con.vmin > 0 then do
    let (con, c) ← con.getchar
    .ret (con.echoChar c, Function.update buf 0 c, 1)
  else .ret (con, buf, 0)

def rawRead (con : Console) (buf : Nat → UInt8) (count : Nat) :
    Exec (Console × (Nat → UInt8) × Int) := do
  let (con, buf, n) ← rawFirst con buf
  let (con, buf, n) := rawLoop (count - n) con buf n
  .ret (con, buf, int32 n)

/-! ## Canonical mode -/

/-- The index behind what `^W` leaves of the part of `buf` where `p` holds. -/
def eraseBack (p : UInt8 → Bool) (buf : Nat → UInt8) : Nat → Nat
  | 0 => 0
  | i + 1 => if p (buf i) then eraseBack p buf i else i + 1

/-- What is left in the ring of an escape sequence behind its second key. -/
def dropSequence : List UInt8 → List UInt8
  | [] => []
  | c :: rest =>
      if (65 ≤ c ∧ c ≤ 90) ∨ (97 ≤ c ∧ c ≤ 122) ∨ c = 126 then rest else dropSequence rest

/-- The keys in the ring behind an escape. -/
def dropEscape : List UInt8 → List UInt8
  | [] => []
  | c :: rest => if c = 91 ∨ c = 79 then dropSequence rest else rest

/-- The end of a canonical read: the line is terminated. -/
def endLine (con : Console) (buf : Nat → UInt8) (i : Nat) : Exec (Console × (Nat → UInt8) × Int) :=
  .ret (con, Function.update buf i 0, int32 i)

/-- `^W`: the blanks before the cursor, then the word before them. -/
def eraseWord (buf : Nat → UInt8) (i : Nat) : Nat :=
  eraseBack (· ≠ 32) buf (eraseBack (· = 32) buf i)

/-- The loop of a canonical read.  Every round takes a key, so that fuel for
one more round than there are keys is enough. -/
def cookedLoop (count : Nat) : Nat → Console → (Nat → UInt8) → Nat →
    Exec (Console × (Nat → UInt8) × Int)
  | 0, _, _, _ => .hang
  | fuel + 1, con, buf, i =>
      if i < count - 1 then do
        let (con, c) ← con.getchar
        if c = 10 ∨ c = 13 then endLine (con.echoChar 10) (Function.update buf i 10) (i + 1)
        else if c = 4 then if i = 0 then .ret (con, buf, 0) else endLine con buf i
        else if c = 3 then
          .ret (((con.echoChar 94).echoChar 67).echoChar 10, Function.update buf 0 0, 0)
        else if c = 8 ∨ c = 127 then
          if i > 0 then cookedLoop count fuel (con.echoErase 1) buf (i - 1)
          else cookedLoop count fuel con buf i
        else if c = 21 then cookedLoop count fuel (con.echoErase i) buf 0
        else if c = 23 then
          cookedLoop count fuel (con.echoErase (i - eraseWord buf i)) buf (eraseWord buf i)
        else if c = 12 then
          cookedLoop count fuel ({ con with out := con.out ++ [Shown.clear] }.echoLine buf i) buf i
        else if c = 27 then
          cookedLoop count fuel { con with typed := dropEscape con.typed } buf i
        else cookedLoop count fuel (con.echoChar c) (Function.update buf i c) (i + 1)
      else endLine con buf i

/-- `sys_read` on the console, for a count that is not 0. -/
def consoleRead (con : Console) (buf : Nat → UInt8) (count : Nat) :
    Exec (Console × (Nat → UInt8) × Int) :=
  if con.canonical then cookedLoop count (con.typed.length + con.coming.length + 1) con buf 0
  else rawRead con buf count

/-- `sys_write` on the console. -/
def consoleWrite (con : Console) (buf : List UInt8) : Console :=
  { con with out := con.out ++ buf.map Shown.char }

end LiteBSD
