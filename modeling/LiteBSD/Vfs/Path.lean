/-
# `LiteBSD.Vfs.Path` — path strings, their resolution, and the synthetic trees

The string functions of `src/vfs.c`.  A C string is the list of its bytes
before the terminating NUL; a buffer `char temp[256]` with its length `len`
is the list of its first `len` bytes, and "while there is room" is a `take`.

`vfs_resolve_path` is called with an output of 256 bytes everywhere, so the
bound of its last copy is `pathMax - 1`.
-/
import LiteBSD.Exec
import Mathlib.Data.List.Basic

namespace LiteBSD

/-- A C string: its bytes before the NUL. -/
abbrev CStr := List UInt8

/-- A string literal of the source. -/
def str (s : String) : CStr := s.toList.map fun c => c.toNat.toUInt8

/-- `'/'` -/
def slash : UInt8 := 47
/-- `'.'` -/
def dot : UInt8 := 46

/-- `sizeof(node->path)`, and of every path buffer. -/
def pathMax : Nat := 256

/-- The `strlen` that stops at 255. -/
def stringLength (value : CStr) : Nat := min value.length 255

/-! ## Resolution -/

/-- `while (len > 1 && temp[len - 1] != '/') len--` -/
def trimName (temp : CStr) : Nat → Nat
  | 0 => 0
  | 1 => 1
  | len + 2 => if temp[len + 1]? ≠ some slash then trimName temp (len + 1) else len + 2

/-- The component `..`. -/
def popComponent (temp : CStr) : CStr :=
  let len := temp.length
  if len > 1 then
    let len := if temp[len - 1]? = some slash then len - 1 else len
    let len := trimName temp len
    let len := if len > 1 ∧ temp[len - 1]? = some slash then len - 1 else len
    temp.take len
  else temp

/-- Any other component: a slash when there is none, then the name, both
only as far as there is room. -/
def pushComponent (temp comp : CStr) : CStr :=
  let temp :=
    if temp.length = 0 ∨ temp[temp.length - 1]? ≠ some slash then
      if temp.length < pathMax - 1 then temp ++ [slash] else temp
    else temp
  temp ++ comp.take (pathMax - 1 - temp.length)

/-- `sizeof(comp) - 1` -/
def componentMax : Nat := 63

/-- The component loop.  A round takes at least one byte of the path, which
is the fuel. -/
def resolveLoop : Nat → CStr → CStr → CStr
  | 0, temp, _ => temp
  | fuel + 1, temp, path =>
      let path := path.dropWhile (· = slash)
      if path = [] then temp
      else
        let comp := (path.takeWhile (· ≠ slash)).take componentMax
        let path := path.drop comp.length
        if comp = [dot] then resolveLoop fuel temp path
        else if comp = [dot, dot] then resolveLoop fuel (popComponent temp) path
        else resolveLoop fuel (pushComponent temp comp) path

/-- Where the walk over `path` starts, and what of `path` it reads. -/
def resolveStart (cwd path : CStr) : CStr × CStr :=
  match path with
  | c :: rest =>
      if c = slash then ([slash], rest)
      else if cwd.head? ≠ some slash then ([slash], path)
      else (cwd.take (pathMax - 2), path)
  | [] => ([slash], [])

def vfsResolvePath (cwd path : CStr) : CStr :=
  if path = [] then
    if cwd = [] then [slash] else cwd.take (pathMax - 1)
  else
    let (temp, rest) := resolveStart cwd path
    let temp := resolveLoop path.length temp rest
    let temp := if temp = [] then [slash] else temp
    temp.take (pathMax - 1)

/-- `while (len > 1 && path[len - 1] == '/') len--` -/
def stripSlashes (path : CStr) : Nat → Nat
  | 0 => 0
  | 1 => 1
  | len + 2 => if path[len + 1]? = some slash then stripSlashes path (len + 1) else len + 2

/-- The index of the last slash below `len`. -/
def lastSlash (path : CStr) : Nat → Option Nat
  | 0 => none
  | i + 1 => if path[i]? = some slash then some i else lastSlash path i

def pathParentDir (path : CStr) : CStr :=
  let len := stripSlashes path (min path.length (pathMax - 1))
  match lastSlash path len with
  | none => [slash]
  | some last => if last = 0 then [slash] else path.take (min last (pathMax - 1))

/-- Is `path` below the directory `dir`: does it go on with a slash after
the bytes of `dir`? -/
def isBelow (dir path : CStr) : Bool :=
  path.take dir.length = dir ∧ path[dir.length]? = some slash

/-! ## `/proc` and `/sys` -/

/-- `struct synth_id`, less `SYNTH_NONE`.  Of the task only its pid is
used. -/
inductive SynthId where
  | procDir
  | pidDir (pid : Nat)
  | pidFile (pid slot : Nat)
  | proFile (slot : Nat)
  | sysDir (slot : Nat)
  | sysFile (slot : Nat)
deriving DecidableEq, Repr

def procFiles : List CStr :=
  [str "meminfo", str "cpuinfo", str "uptime", str "version", str "loadavg", str "stat",
   str "net/dev", str "net/route", str "net/arp"]

def pidFiles : List CStr := [str "stat", str "cmdline"]

def sysFiles : List CStr := [str "sys_vendor", str "product_name", str "product_version"]

def sysDirs : List CStr :=
  [str "/sys", str "/sys/devices", str "/sys/devices/virtual",
   str "/sys/devices/virtual/dmi", str "/sys/devices/virtual/dmi/id"]

/-- The digits loop of `parse_pid`. -/
def parseDigits (v : Nat) : CStr → Option Nat
  | [] => some v
  | c :: s => if c < 48 ∨ c > 57 then none else parseDigits (u32 (v * 10 + (c.toNat - 48))) s

def parsePid (s : CStr) : Option Nat :=
  if s = [] then none else parseDigits 0 s

/-- `/proc/<pid>[/<file>]`, given what follows `/proc/` and the pids on the
ready queue. -/
def pidLookup (pids : List Nat) (rest : CStr) : Option SynthId :=
  let pbuf := (rest.takeWhile (· ≠ slash)).take 15
  match parsePid pbuf with
  | none => none
  | some pid =>
      if pid ∉ pids then none
      else
        match rest.drop pbuf.length with
        | [] => some (.pidDir pid)
        | c :: fn => if c = slash then (pidFiles.idxOf? fn).map (.pidFile pid) else none

def sysLookup (resolved : CStr) : Option SynthId :=
  match sysDirs.idxOf? resolved with
  | some slot => some (.sysDir slot)
  | none =>
      let dmi := str "/sys/devices/virtual/dmi/id/"
      if resolved.take dmi.length = dmi then
        (sysFiles.idxOf? (resolved.drop dmi.length)).map .sysFile
      else none

def synthLookup (pids : List Nat) (resolved : CStr) : Option SynthId :=
  if resolved.head? ≠ some slash then none
  else if resolved = str "/proc" ∨ resolved = str "/proc/net" then some .procDir
  else if resolved.take 6 = str "/proc/" then
    let rest := resolved.drop 6
    match procFiles.idxOf? rest with
    | some slot => some (.proFile slot)
    | none => pidLookup pids rest
  else sysLookup resolved

def synthIno : SynthId → Nat
  | .procDir => 200
  | .proFile slot => 100 + slot
  | .pidDir pid => u32 (2000 + pid)
  | .pidFile pid slot => u32 (100000 + pid * 8 + slot)
  | .sysFile slot => 5000 + slot
  | .sysDir slot => 6000 + slot

def SynthId.isDir : SynthId → Bool
  | .procDir | .pidDir _ | .sysDir _ => true
  | .pidFile _ _ | .proFile _ | .sysFile _ => false

end LiteBSD
