/-
# `LiteBSD.Initrd.Model` — the archive the kernel boots with

`src/initrd.c`: the loop over the headers of a tar archive in memory, which
fills the file system.  Memory is a function of the address, and an address
is a word: `addr + 512` is computed as `u32 (addr + 512)`, in the test of the
loop, in the test before the data is taken, and in the step to the next
header.

The messages are left out, and with them the counts that only they show.
-/
import LiteBSD.Vfs.Model

namespace LiteBSD

/-! ## Reading memory -/

/-- The `n` bytes from `a` on. -/
def memBytes (mem : Nat → UInt8) (a n : Nat) : List UInt8 :=
  (List.range n).map fun i => mem (u32 (a + i))

/-- The string at `a`, at most `n` bytes of it. -/
def memString (mem : Nat → UInt8) : Nat → Nat → CStr
  | _, 0 => []
  | a, n + 1 => if mem (u32 a) = 0 then [] else mem (u32 a) :: memString mem (a + 1) n

/-- The string at `a`: it ends within the address space. -/
def memCStr (mem : Nat → UInt8) (a : Nat) : CStr := memString mem a 4294967296

/-! ## `tar_header_t` -/

def tarSize : Nat := 124
def tarTypeflag : Nat := 156
def tarLinkname : Nat := 157

/-- `oct_to_int`: what is no octal digit is passed over. -/
def octToInt (n : Nat) : List UInt8 → Nat
  | [] => n
  | b :: s =>
      if b = 0 then n
      else if 48 ≤ b ∧ b ≤ 55 then octToInt (u32 (n * 8 + (b.toNat - 48))) s
      else octToInt n s

/-- The size in the header at `addr`. -/
def headerSizeField (mem : Nat → UInt8) (addr : Nat) : Nat := octToInt 0 (memBytes mem (addr + tarSize) 11)

/-- `header->typeflag` -/
def headerType (mem : Nat → UInt8) (addr : Nat) : UInt8 := mem (u32 (addr + tarTypeflag))

/-- `'0'` or `'\0'` -/
def isFileType (type : UInt8) : Bool := type = 48 ∨ type = 0

/-- `'5'` -/
def isDirType (type : UInt8) : Bool := type = 53

/-- `'1'` or `'2'`: a symbolic link is taken for a hard one. -/
def isLinkType (type : UInt8) : Bool := type = 49 ∨ type = 50

/-- `normalize_path`, for a buffer of `maxLen` bytes; `none` for `-1`. -/
def normalizePath (raw : CStr) (maxLen : Nat) (isDir : Bool) : Option CStr :=
  if raw = [dot] then none
  else
    let raw := if raw.take 2 = [dot, slash] then raw.drop 2 else raw
    let raw := raw.dropWhile (· = slash)
    if raw = [] then none
    else
      let out := slash :: raw.take (maxLen - 2)
      some (if isDir ∧ out.length > 1 ∧ out.getLast? = some slash then out.dropLast else out)

/-- The prefixes of `path` that `ensure_parent_dirs` makes directories of. -/
def parentDirs (path : CStr) : List CStr :=
  ((List.range (min path.length 255)).filter fun i => i > 0 ∧ path[i]? = some slash).map path.take

/-- `target_path` -/
def targetPath (lname : CStr) : CStr :=
  if lname.take 2 = [dot, slash] then slash :: (lname.drop 2).take 254
  else if lname.head? ≠ some slash then slash :: lname.take 254
  else lname.take 255

/-! ## One header -/

def ensureParentDirs (v : Vfs) (c : Caller) (path : CStr) : Exec Vfs :=
  (parentDirs path).foldlM (fun v dir => do let (v, _) ← vfsMkdir v c dir; .ret v) v

/-- The bytes that are handed to `vfs_write` for a file whose header is at
`addr`: where they start, and how many there are. -/
def dataRange (mem : Nat → UInt8) (stop addr : Nat) : Option (Nat × Nat) :=
  let size := headerSizeField mem addr
  if isFileType (headerType mem addr) ∧ size > 0 ∧ u32 (addr + 512 + size) ≤ stop then
    some (u32 (addr + 512), size)
  else none

/-- A file: it is opened, filled and closed. -/
def loadFile (mem : Nat → UInt8) (stop addr : Nat) (v : Vfs) (c : Caller) (path : CStr) : Exec Vfs := do
  let (v, p) ← vfsOpen v c path 0x42
  match p with
  | none => .ret v
  | some a => do
      let v ← match dataRange mem stop addr with
        | none => .ret v
        | some (first, size) => do
            let (v, _) ← vfsWrite v a 0 (memBytes mem first size)
            .ret v
      let (v, _) ← vfsClose v a
      .ret v

/-- A link: `vfs_find_node` takes the path as it is. -/
def loadLink (v : Vfs) (c : Caller) (path target : CStr) : Exec Vfs :=
  match findNode v target with
  | none => .ret v
  | some _ => do
      let (v, _) ← vfsLink v c path target
      .ret v

/-- The body of the loop of `initrd_load`, up to the step. -/
def loadEntry (mem : Nat → UInt8) (c : Caller) (stop : Nat) (v : Vfs) (addr : Nat) : Exec Vfs :=
  let type := headerType mem addr
  match normalizePath (memCStr mem addr) 256 (isDirType type) with
  | none => .ret v
  | some path => do
      let v ← ensureParentDirs v c path
      if isDirType type then do
        let (v, _) ← vfsMkdir v c path
        .ret v
      else if isFileType type then loadFile mem stop addr v c path
      else if isLinkType type then loadLink v c path (targetPath (memCStr mem (addr + tarLinkname)))
      else .ret v

/-! ## The loop -/

/-- `(size + 511) / 512` -/
def dataBlocks (mem : Nat → UInt8) (addr : Nat) : Nat := u32 (headerSizeField mem addr + 511) / 512

/-- `addr += 512 + data_blocks * 512` -/
def nextHeader (mem : Nat → UInt8) (addr : Nat) : Nat := u32 (addr + u32 (512 + u32 (dataBlocks mem addr * 512)))

/-- The loop goes on: there is room for a header at `addr`, which does not
end the archive. -/
def headerAt (mem : Nat → UInt8) (stop addr : Nat) : Bool := u32 (addr + 512) ≤ stop ∧ mem (u32 addr) ≠ 0

/-- The loop of `initrd_load`.  The addresses it visits depend on memory
alone, so that a loop which visits more than `2^32` of them never ends. -/
def loadLoop (mem : Nat → UInt8) (c : Caller) (stop : Nat) : Nat → Vfs → Nat → Exec Vfs
  | 0, _, _ => .hang
  | fuel + 1, v, addr =>
      if headerAt mem stop addr then do
        let v ← loadEntry mem c stop v addr
        loadLoop mem c stop fuel v (nextHeader mem addr)
      else .ret v

def initrdLoad (mem : Nat → UInt8) (c : Caller) (v : Vfs) (start stop : Nat) : Exec Vfs :=
  if start ≥ stop then .ret v else loadLoop mem c stop 4294967297 v start

end LiteBSD
