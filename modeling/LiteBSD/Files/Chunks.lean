/-
# `LiteBSD.Files.Chunks` — a file written and read piece by piece

How many bytes there are and where they lie is known to the node; where the
next read or write starts is known to the file object, of which several may be
on one node; and with `O_APPEND` the object asks the node before each write.
A row of writes comes to one write of all the bytes (`writeAll_chunks`,
`writeAll_appends`), and a row of reads returns the file piece by piece
(`readAll_pieces`).

All this is so where the object has no socket.  `sys_open` does not store into
the `sock` of a new file, and what memory held there is looked at before the
node: bytes written to such a descriptor do not get into the file.
-/
import LiteBSD.Files.Dup
import LiteBSD.Files.FsRun

namespace LiteBSD.Files

open Lib

/-- Calls of `sys_write` in a row, each of a task and with a descriptor of its
own, and their results. -/
def writeAll (k : Kernel) : List (Nat × Nat × List UInt8) → Exec (Kernel × List Int)
  | [] => .ret (k, [])
  | (t, fd, chunk) :: rest => do
      let (k, r) ← sysWrite k t fd (some chunk)
      let (k, rs) ← writeAll k rest
      .ret (k, r :: rs)

/-- The bytes of a buffer that `sys_read` says it has stored. -/
def stored (buf : Nat → UInt8) (r : Int) : List UInt8 := (List.range r.toNat).map buf

/-- Calls of `sys_read` in a row, each with a buffer and a count, and what they
store and return. -/
def readAll (k : Kernel) (t fd : Nat) : List ((Nat → UInt8) × Nat) → Exec (Kernel × List (List UInt8 × Int))
  | [] => .ret (k, [])
  | (buf, count) :: rest => do
      let (k, buf, r) ← sysRead k t fd true buf count
      let (k, reads) ← readAll k t fd rest
      .ret (k, (stored buf r, r) :: reads)

/-- A regular file with data of its own: no device, no terminal, and not a
file that is generated under `/proc` or `/sys`, which nobody can write. -/
structure PlainFile (n : Node) : Prop where
  regular : Regular n
  real : n.synth = false
  tty : n.path ≠ devTty
  console : n.path ≠ devConsole

/-- The task `t` has the file `x` at `f` open as `fd`, by a number that means
nothing to the calls, and the file is on the node `a`. -/
structure Handle (k : Kernel) (a t fd f : Nat) (x : File) : Prop where
  task : t ∈ k.tasks
  number : 3 ≤ fd
  slot : k.fdAt t fd = some f
  file : k.file f = some x
  node : x.node = some a

/-- The bytes of the file at `a`. -/
def Kernel.contents (k : Kernel) (a : Nat) : Option (List UInt8) := (k.vfs.node a).map k.vfs.bytes

/-- How it is divided makes no difference to what is written to the file at
`a`, which holds `file`, and to what is read from it. -/
structure ChunksImmaterial (k : Kernel) (a : Nat) (file : List UInt8) : Prop where
  /-- Written from the start on, in whatever pieces. -/
  written : ∀ t fd f x, Handle k a t fd f x → x.offset = 0 → oAppend x.flags = false →
    ∀ chunks : List (List UInt8), chunks.flatten.length < 2147483648 →
      (writeAll k (chunks.map fun chunk => (t, fd, chunk))).Halts fun p =>
        p.1.contents a = some (refWrite file 0 chunks.flatten) ∧ p.2 = chunks.map fun chunk => (chunk.length : Int)
  /-- Read from the start on, in whatever pieces. -/
  read : ∀ t fd f x, Handle k a t fd f x → x.offset = 0 →
    ∀ calls : List ((Nat → UInt8) × Nat), (∀ call ∈ calls, 0 < call.2) →
      ∃ k' reads, readAll k t fd calls = .ret (k', reads) ∧ reads.length = calls.length ∧
        (reads.map Prod.fst).flatten <+: file ∧ ∀ i bytes r, reads[i]? = some (bytes, r) →
          r = bytes.length ∧ (r = 0 ↔ ((reads.take i).map Prod.fst).flatten = file)
  /-- Appended, by whatever tasks through whatever descriptors. -/
  appended : ∀ writes : List (Nat × Nat × List UInt8),
    (∀ w ∈ writes, ∃ f x, Handle k a w.1 w.2.1 f x ∧ oAppend x.flags) →
    file.length + (writes.map fun w => w.2.2).flatten.length < 2147483648 →
      (writeAll k writes).Halts fun p =>
        p.1.contents a = some (file ++ (writes.map fun w => w.2.2).flatten) ∧
          p.2 = writes.map fun w => (w.2.2.length : Int)

/-- No file object that something is read from or written to has a socket. -/
def NoSockets (k : Kernel) (a : Nat) : Prop :=
  ∀ t fd f x, Handle k a t fd f x → x.offset = 0 ∨ oAppend x.flags → x.sock = .null

/-! ## One call -/

/-- The file at `a` holds `file`, and all is in order. -/
structure FileHolds (k : Kernel) (a : Nat) (file : List UInt8) : Prop where
  fs : FsInv k.vfs
  kinds : ∀ f x, k.file f = some x → x.oneKind
  node : ∃ n, k.vfs.node a = some n ∧ PlainFile n ∧ k.vfs.bytes n = file

/-- Where a write through `x` to a file of `size` bytes starts. -/
def nextWrite (x : File) (size : Nat) : Nat := if oAppend x.flags then size else x.offset

/-- Nothing but the offset of the file `x` at `f` has changed, which is now
`offset`, and what is in the file system. -/
structure Advanced (k k' : Kernel) (f : Nat) (x : File) (offset : Nat) : Prop where
  tasks : k'.tasks = k.tasks
  fd : k'.fd = k.fd
  file : k'.file = Function.update k.file f (some { x with offset := offset })

section Calls

variable {k k' : Kernel} {a t fd f offset : Nat} {x : File} {file : List UInt8}

theorem FileHolds.contents (h : FileHolds k a file) : k.contents a = some file := by
  obtain ⟨n, hn, -, rfl⟩ := h.node
  rw [Kernel.contents, hn, Option.map_some]

theorem Handle.not_pipe (hh : Handle k a t fd f x) (hk : FileHolds k a file) : x.pipe = none := by
  rcases hk.kinds f x hh.file with hnode | hpipe
  · rw [hh.node] at hnode
    cases hnode
  · exact hpipe

theorem Handle.not_bare (hh : Handle k a t fd f x) : ¬x.bare := by
  simp [File.bare, hh.node]

theorem Advanced.oneKind (h : Advanced k k' f x offset) (hx : k.file f = some x)
    (hkinds : ∀ g y, k.file g = some y → y.oneKind) : ∀ g y, k'.file g = some y → y.oneKind := by
  intro g y hg
  rw [h.file] at hg
  rcases file_update hg with ⟨-, hy⟩ | ⟨-, hg⟩
  · cases hy
    exact hkinds f x hx
  · exact hkinds g y hg

/-- A handle stays one, of a file that differs in its offset at most. -/
theorem Advanced.handle (h : Advanced k k' f x offset) (hx : k.file f = some x) {u fd' g : Nat} {y : File}
    (hh : Handle k a u fd' g y) : ∃ y', Handle k' a u fd' g y' ∧ y'.flags = y.flags ∧ y'.sock = y.sock := by
  have hslot : k'.fdAt u fd' = some g := by
    rw [← hh.slot, Kernel.fdAt, Kernel.fdAt, h.fd]
  by_cases hg : g = f
  · obtain rfl : x = y := Option.some.inj (hx.symm.trans (hg ▸ hh.file))
    refine ⟨{ x with offset := offset }, ⟨h.tasks ▸ hh.task, hh.number, hslot, ?_, hh.node⟩, rfl, rfl⟩
    rw [h.file, hg, Function.update_self]
  · refine ⟨y, ⟨h.tasks ▸ hh.task, hh.number, hslot, ?_, hh.node⟩, rfl, rfl⟩
    rw [h.file, Function.update_of_ne hg]
    exact hh.file

/-- `sys_write` on a file that is its node. -/
theorem fileWrite_node (hsock : x.sock = .null) (hpipe : x.pipe = none) (hnode : x.node = some a) (buf : List UInt8) :
    fileWrite k f x buf = (do
      let offset ← writeOffset k.vfs a x
      let (v, written) ← vfsWrite k.vfs a offset buf
      let offset := if written > 0 then u32 (offset + written.toNat) else offset
      .ret ({ k with vfs := v }.setFile f { x with offset := offset }, written)) := by
  cases x with
  | mk node offset flags refCount pipe pipeEnd sock =>
      cases hsock
      cases hpipe
      cases hnode
      rfl

/-- `sys_read` on a file that is its node. -/
theorem fileRead_node (hsock : x.sock = .null) (hpipe : x.pipe = none) (hnode : x.node = some a) (count : Nat) :
    fileRead k f x count = (do
      let (bytes, r) ← vfsRead k.vfs a x.offset count
      let offset := if r > 0 then u32 (x.offset + r.toNat) else x.offset
      .ret (k.setFile f { x with offset := offset }, bytes, r)) := by
  cases x with
  | mk node offset flags refCount pipe pipeEnd sock =>
      cases hsock
      cases hpipe
      cases hnode
      rfl

theorem writeOffset_plain {v : Vfs} {n : Node} (hn : v.node a = some n) (hplain : PlainFile n) :
    writeOffset v a x = .ret (nextWrite x n.size) := by
  unfold writeOffset nextWrite
  split
  · rename_i happ
    rw [startOffset, if_pos happ, vfsFstat, Vfs.load_live hn, Exec.ret_bind, Exec.ret_bind, fillStat,
      if_neg hplain.regular.2.2.2]
  · rfl

/-- One piece is written. -/
theorem sysWrite_chunk (hk : FileHolds k a file) (hh : Handle k a t fd f x) (hsock : x.sock = .null)
    {chunk : List UInt8} (hstart : nextWrite x file.length ≤ file.length)
    (hend : nextWrite x file.length + chunk.length < 2147483648) :
    (sysWrite k t fd (some chunk)).Halts fun p => p.2 = chunk.length ∧
      FileHolds p.1 a (refWrite file (nextWrite x file.length) chunk) ∧
      Advanced k p.1 f x (nextWrite x file.length + chunk.length) := by
  have hpipe := hh.not_pipe hk
  obtain ⟨hfs, hkinds, n, hn, hplain, rfl⟩ := hk
  rw [Vfs.length_bytes] at hstart hend ⊢
  have hreg := hplain.regular
  have hgrow : Growable n := ⟨hreg.not_dir, hreg.not_symlink, hplain.real⟩
  have hstd : ¬((fd = 1 ∨ fd = 2) ∨ x.bare) := by
    have hnumber := hh.number
    exact not_or.mpr ⟨by omega, hh.not_bare⟩
  rw [sysWrite_eq hh.slot hh.file, if_neg hstd, fileWrite_node hsock hpipe hh.node, writeOffset_plain hn hplain,
    Exec.ret_bind]
  refine (vfsWrite_halts hfs hn hreg hgrow hstart hend).bind fun ⟨w, r⟩ ⟨hr, hw, n', hn', hlabel, hbytes⟩ => .ret ?_
  dsimp only at hr hw hn' hbytes ⊢
  subst hr
  have hoffset : (if (chunk.length : Int) > 0 then u32 (nextWrite x n.size + (chunk.length : Int).toNat)
      else nextWrite x n.size) = nextWrite x n.size + chunk.length := by
    split
    · exact u32_of_lt (by omega)
    · omega
  have hadv : Advanced k (Kernel.setFile { k with vfs := w } f { x with offset := nextWrite x n.size + chunk.length })
      f x (nextWrite x n.size + chunk.length) := ⟨rfl, rfl, rfl⟩
  rw [hoffset]
  refine ⟨rfl, ⟨hw, hadv.oneKind hh.file hkinds, n', hn', ⟨hreg.of_label hlabel, ?_, ?_, ?_⟩, hbytes⟩, hadv⟩
  · exact (congrArg Label.synth hlabel).trans hplain.real
  · exact fun hp => hplain.tty ((congrArg Label.path hlabel).symm.trans hp)
  · exact fun hp => hplain.console ((congrArg Label.path hlabel).symm.trans hp)

theorem stored_overlay (piece : List UInt8) (buf : Nat → UInt8) : stored (overlay piece buf) piece.length = piece := by
  refine List.ext_getElem? fun i => ?_
  by_cases hi : i < piece.length
  · simp [stored, overlay, hi]
  · simp [stored, hi]

/-- One piece is read. -/
theorem sysRead_piece (hk : FileHolds k a file) (hh : Handle k a t fd f x) (hsock : x.sock = .null)
    (hsize : file.length < 2147483648) (hoff : x.offset ≤ file.length) (buf : Nat → UInt8) {count : Nat}
    (hcount : 0 < count) :
    sysRead k t fd true buf count =
      .ret (k.setFile f { x with offset := x.offset + ((file.drop x.offset).take count).length },
        overlay ((file.drop x.offset).take count) buf, ((file.drop x.offset).take count).length) := by
  have hpipe := hh.not_pipe hk
  obtain ⟨hfs, -, n, hn, hplain, rfl⟩ := hk
  obtain ⟨m, rfl⟩ := Nat.exists_eq_succ_of_ne_zero (Nat.ne_of_gt hcount)
  have hconsole : readsConsole k t fd = .ret false := by
    have hnumber : ¬fd = 0 := Nat.ne_of_gt (Nat.lt_of_lt_of_le (by decide) hh.number)
    rw [readsConsole, if_neg hnumber, isConsoleFd, hh.slot]
    dsimp only
    rw [load_eq_ret.mpr hh.file, Exec.ret_bind, if_neg (not_not.mpr hpipe), hh.node]
    dsimp only
    rw [vfsIsTty, Vfs.load_live hn, Exec.ret_bind, decide_eq_false (not_or.mpr ⟨hplain.tty, hplain.console⟩)]
  rw [sysRead_eq hh.slot hh.file, hconsole, Exec.ret_bind, readFrom, if_neg Bool.false_ne_true,
    fileRead_node hsock hpipe hh.node, vfsRead_of_regular hfs.blobs hn hplain.regular, Exec.ret_bind]
  dsimp only
  rw [Exec.ret_bind]
  generalize hpiece : refRead (k.vfs.bytes n) x.offset (m + 1) = piece
  have hle : x.offset + piece.length < 2147483648 := by
    rw [← hpiece, refRead, List.length_take, List.length_drop]
    omega
  have hint : int32 piece.length = piece.length := if_pos (by omega)
  have hoffset : (if (piece.length : Int) > 0 then u32 (x.offset + (piece.length : Int).toNat) else x.offset) =
      x.offset + piece.length := by
    split
    · exact u32_of_lt (by omega)
    · omega
  rw [show ((k.vfs.bytes n).drop x.offset).take (m + 1) = piece from hpiece, hint, hoffset]

end Calls

/-! ## Rows of calls -/

section Rows

variable {k : Kernel} {a t fd f : Nat} {x : File} {file : List UInt8}

/-- Writes through one descriptor without `O_APPEND`. -/
theorem writeAll_chunks {chunks : List (List UInt8)} (hk : FileHolds k a file) (hh : Handle k a t fd f x)
    (hsock : x.sock = .null) (happ : oAppend x.flags = false) (hoff : x.offset ≤ file.length)
    (hroom : x.offset + chunks.flatten.length < 2147483648) :
    (writeAll k (chunks.map fun chunk => (t, fd, chunk))).Halts fun p =>
      FileHolds p.1 a (refWrite file x.offset chunks.flatten) ∧ p.2 = chunks.map fun chunk => (chunk.length : Int) := by
  induction chunks generalizing k x file with
  | nil =>
      have hnone : refWrite file x.offset [] = file := by simp [refWrite_of_le hoff]
      exact .ret ⟨hnone.symm ▸ hk, rfl⟩
  | cons chunk chunks ih =>
      have hnext : nextWrite x file.length = x.offset := if_neg (by rw [happ]; decide)
      rw [List.flatten_cons, List.length_append] at hroom
      have hend : nextWrite x file.length + chunk.length < 2147483648 := by omega
      have hstep := sysWrite_chunk hk hh hsock (by omega) hend
      rw [hnext] at hstep
      rw [List.map_cons, writeAll]
      refine hstep.bind fun p hp => ?_
      obtain ⟨k₁, r⟩ := p
      obtain ⟨hr, hk₁, hadv⟩ := hp
      have hh₁ : Handle k₁ a t fd f { x with offset := x.offset + chunk.length } :=
        ⟨hadv.tasks ▸ hh.task, hh.number, by rw [← hh.slot, Kernel.fdAt, Kernel.fdAt, hadv.fd],
          by rw [hadv.file, Function.update_self], hh.node⟩
      have hoff₁ : x.offset + chunk.length ≤ (refWrite file x.offset chunk).length := by
        rw [length_refWrite hoff]
        exact Nat.le_max_right _ _
      have hroom₁ : x.offset + chunk.length + chunks.flatten.length < 2147483648 := by omega
      refine (ih hk₁ hh₁ hsock happ hoff₁ hroom₁).bind fun p hp => .ret ⟨?_, ?_⟩
      · rw [List.flatten_cons, ← refWrite_append hoff]
        exact hp.1
      · rw [List.map_cons]
        exact congrArg₂ List.cons hr hp.2

/-- Writes through any descriptors with `O_APPEND`. -/
theorem writeAll_appends {writes : List (Nat × Nat × List UInt8)} (hk : FileHolds k a file)
    (hh : ∀ w ∈ writes, ∃ f x, Handle k a w.1 w.2.1 f x ∧ oAppend x.flags ∧ x.sock = .null)
    (hroom : file.length + (writes.map fun w => w.2.2).flatten.length < 2147483648) :
    (writeAll k writes).Halts fun p => FileHolds p.1 a (file ++ (writes.map fun w => w.2.2).flatten) ∧
      p.2 = writes.map fun w => (w.2.2.length : Int) := by
  induction writes generalizing k file with
  | nil => exact .ret ⟨(List.append_nil file).symm ▸ hk, rfl⟩
  | cons w writes ih =>
      obtain ⟨t, fd, chunk⟩ := w
      obtain ⟨f, x, hx, happ, hsock⟩ := hh _ List.mem_cons_self
      have hnext : nextWrite x file.length = file.length := if_pos happ
      rw [List.map_cons, List.flatten_cons, List.length_append] at hroom
      have hend : nextWrite x file.length + chunk.length < 2147483648 := by
        dsimp only at hroom
        omega
      have hstep := sysWrite_chunk hk hx hsock (by omega) hend
      rw [hnext, refWrite_end] at hstep
      rw [writeAll]
      refine hstep.bind fun ⟨k₁, r⟩ ⟨hr, hk₁, hadv⟩ => ?_
      have hh₁ : ∀ w ∈ writes, ∃ f x, Handle k₁ a w.1 w.2.1 f x ∧ oAppend x.flags ∧ x.sock = .null := by
        intro w hw
        obtain ⟨g, y, hy, happ', hsock'⟩ := hh w (List.mem_cons_of_mem _ hw)
        obtain ⟨y', hy', hflags, hs⟩ := hadv.handle hx.file hy
        exact ⟨g, y', hy', hflags ▸ happ', hs.trans hsock'⟩
      have hroom₁ : (file ++ chunk).length + (writes.map fun w => w.2.2).flatten.length < 2147483648 := by
        rw [List.length_append]
        dsimp only at hroom
        omega
      refine (ih hk₁ hh₁ hroom₁).bind fun ⟨k₂, rs⟩ ⟨hk₂, hrs⟩ => .ret ⟨?_, ?_⟩
      · rwa [List.append_assoc] at hk₂
      · rw [List.map_cons]
        exact congrArg₂ List.cons hr hrs

/-- Reads through one descriptor. -/
theorem readAll_pieces {calls : List ((Nat → UInt8) × Nat)} (hk : FileHolds k a file) (hh : Handle k a t fd f x)
    (hsock : x.sock = .null) (hsize : file.length < 2147483648) (hoff : x.offset ≤ file.length)
    (hcalls : ∀ call ∈ calls, 0 < call.2) :
    ∃ k', readAll k t fd calls =
      .ret (k', (refReads (file.drop x.offset) (calls.map Prod.snd)).map fun p => (p, (p.length : Int))) := by
  induction calls generalizing k x with
  | nil => exact ⟨k, rfl⟩
  | cons call calls ih =>
      obtain ⟨buf, count⟩ := call
      have hread := sysRead_piece hk hh hsock hsize hoff buf (hcalls _ List.mem_cons_self)
      rw [readAll, hread, Exec.ret_bind]
      dsimp only
      generalize hpiece : (file.drop x.offset).take count = piece at hread ⊢
      have hlen : piece.length = min count (file.length - x.offset) := by
        rw [← hpiece, List.length_take, List.length_drop]
      have hadv : Advanced k (k.setFile f { x with offset := x.offset + piece.length }) f x (x.offset + piece.length) :=
        ⟨rfl, rfl, rfl⟩
      have hk₁ : FileHolds (k.setFile f { x with offset := x.offset + piece.length }) a file :=
        ⟨hk.fs, hadv.oneKind hh.file hk.kinds, hk.node⟩
      have hh₁ : Handle (k.setFile f { x with offset := x.offset + piece.length }) a t fd f
          { x with offset := x.offset + piece.length } :=
        ⟨hh.task, hh.number, hh.slot, Function.update_self _ _ _, hh.node⟩
      obtain ⟨k', hk'⟩ := ih hk₁ hh₁ hsock (by dsimp only; omega) fun c hc => hcalls c (List.mem_cons_of_mem _ hc)
      have hdrop : file.drop (x.offset + piece.length) = (file.drop x.offset).drop count := by
        rw [List.drop_drop]
        rcases Nat.le_total count (file.length - x.offset) with hle | hle
        · rw [hlen, Nat.min_eq_left hle]
        · rw [List.drop_eq_nil_of_le (by omega), List.drop_eq_nil_of_le (by omega)]
      rw [hk', Exec.ret_bind, stored_overlay, List.map_cons, refReads, List.map_cons, hpiece, hdrop]
      exact ⟨k', rfl⟩

/-- Whatever comes of a write to a descriptor with a socket, the file system
is what it was. -/
theorem writeAll_socket {chunk : List UInt8} (hh : Handle k a t fd f x) (hsock : x.sock ≠ .null)
    {Q : Kernel × List Int → Prop} (h : (writeAll k [(t, fd, chunk)]).Halts Q) : ∃ p, Q p ∧ p.1.vfs = k.vfs := by
  have hstd : ¬((fd = 1 ∨ fd = 2) ∨ x.bare) := by
    have hnumber := hh.number
    exact not_or.mpr ⟨by omega, hh.not_bare⟩
  rw [writeAll, sysWrite_eq hh.slot hh.file, if_neg hstd, fileWrite] at h
  cases hs : x.sock with
  | null => exact absurd hs hsock
  | slot i =>
      rw [hs] at h
      rcases h with ⟨msg, h⟩ | ⟨p, h, hq⟩
      · cases h
      · cases h
        exact ⟨_, hq, rfl⟩
  | wild =>
      rw [hs] at h
      rcases h with ⟨msg, h⟩ | ⟨p, h, -⟩
      · cases h
      · cases h

end Rows

/-! ## Files and their pieces -/

/-- There is a byte that is not the first one of the file. -/
theorem exists_refWrite_ne (file : List UInt8) : ∃ b, refWrite file 0 [b] ≠ file := by
  cases file with
  | nil => exact ⟨0, by decide⟩
  | cons c rest =>
      refine ⟨c + 1, fun heq => ?_⟩
      rw [refWrite_of_le (Nat.zero_le _)] at heq
      have hhead : c + 1 = c := (List.cons.inj heq).1
      exact absurd hhead (by simp)

section Immaterial

variable {k : Kernel} {a : Nat} {file : List UInt8}

theorem NoSockets.immaterial (hclean : NoSockets k a) (hk : FileHolds k a file) (hsize : file.length < 2147483648) :
    ChunksImmaterial k a file where
  written := by
    intro t fd f x hh hzero happ chunks hroom
    have hroom' : x.offset + chunks.flatten.length < 2147483648 := by omega
    have hrow := writeAll_chunks hk hh (hclean t fd f x hh (.inl hzero)) happ (by omega) hroom'
    rw [hzero] at hrow
    exact hrow.mono fun p ⟨hp, hrs⟩ => ⟨hp.contents, hrs⟩
  read := by
    intro t fd f x hh hzero calls hcalls
    obtain ⟨k', hk'⟩ := readAll_pieces hk hh (hclean t fd f x hh (.inl hzero)) hsize (by omega) hcalls
    rw [hzero, List.drop_zero] at hk'
    refine ⟨k', _, hk', ?_, ?_, fun i bytes r hi => ?_⟩
    · rw [List.length_map, length_refReads, List.length_map]
    · rw [List.map_map, show Prod.fst ∘ (fun piece : List UInt8 => (piece, (piece.length : Int))) = id from rfl,
        List.map_id]
      exact refReads_prefix file _
    · rw [List.getElem?_map, Option.map_eq_some_iff] at hi
      obtain ⟨piece, hi, heq⟩ := hi
      cases heq
      have hpos : ∀ count ∈ calls.map Prod.snd, 0 < count := by
        intro count hcount
        obtain ⟨call, hcall, rfl⟩ := List.mem_map.mp hcount
        exact hcalls call hcall
      have hnil := refReads_nil_iff hpos hi
      rw [← List.map_take, List.map_map,
        show Prod.fst ∘ (fun piece : List UInt8 => (piece, (piece.length : Int))) = id from rfl, List.map_id, ← hnil]
      exact ⟨rfl, by rw [Int.natCast_eq_zero, List.length_eq_zero_iff]⟩
  appended := by
    intro writes hwrites hroom
    have hh : ∀ w ∈ writes, ∃ f x, Handle k a w.1 w.2.1 f x ∧ oAppend x.flags ∧ x.sock = .null := by
      intro w hw
      obtain ⟨f, x, hx, happ⟩ := hwrites w hw
      exact ⟨f, x, hx, happ, hclean _ _ f x hx (.inr happ)⟩
    exact (writeAll_appends hk hh hroom).mono fun p ⟨hp, hrs⟩ => ⟨hp.contents, hrs⟩

theorem ChunksImmaterial.noSockets (h : ChunksImmaterial k a file) (hk : FileHolds k a file)
    (hsize : file.length + 1 < 2147483648) : NoSockets k a := by
  intro t fd f x hh hstart
  by_contra hsock
  -- the file is what it was before the write
  have hsame {chunk : List UInt8} {p : Kernel × List Int} (hp : p.1.vfs = k.vfs) (hc : p.1.contents a = some chunk) :
      file = chunk := by
    rw [Kernel.contents, hp] at hc
    exact Option.some.inj (hk.contents.symm.trans hc)
  cases happ : oAppend x.flags with
  | true =>
      have hone : ∀ w ∈ [(t, fd, ([0] : List UInt8))], ∃ f x, Handle k a w.1 w.2.1 f x ∧ oAppend x.flags :=
        List.forall_mem_singleton.mpr ⟨f, x, hh, happ⟩
      have hrow := h.appended _ hone hsize
      obtain ⟨p, ⟨hp, -⟩, hvfs⟩ := writeAll_socket hh hsock hrow
      have hlen := congrArg List.length (hsame hvfs hp)
      simp at hlen
  | false =>
      have hzero : x.offset = 0 := hstart.resolve_right (by rw [happ]; decide)
      obtain ⟨b, hb⟩ := exists_refWrite_ne file
      have hrow := h.written t fd f x hh hzero happ [[b]] (show 1 < 2147483648 by decide)
      obtain ⟨p, ⟨hp, -⟩, hvfs⟩ := writeAll_socket hh hsock hrow
      exact hb (hsame hvfs hp).symm

end Immaterial

/-- For every regular file of every kernel that is reached, if allocations do
not return `NULL`: the division of what is written, read and appended makes no
difference if no file object on it has a socket, and only then, as far as the
file has room for a byte. -/
theorem chunks_immaterial_iff {k : Kernel} {a : Nat} {n : Node} (h : plentySystem.Reach k)
    (hn : k.vfs.node a = some n) (hplain : PlainFile n) (hsize : n.size < 2147483648) :
    (NoSockets k a → ChunksImmaterial k a (k.vfs.bytes n)) ∧
      (n.size + 1 < 2147483648 → ChunksImmaterial k a (k.vfs.bytes n) → NoSockets k a) := by
  obtain ⟨hfs, hkinds⟩ := tracked_of_reach h
  have hk : FileHolds k a (k.vfs.bytes n) := ⟨hfs, hkinds, n, hn, hplain, rfl⟩
  have hlen := Vfs.length_bytes k.vfs n
  exact ⟨fun hclean => hclean.immaterial hk (hlen ▸ hsize), fun hroom hall => hall.noSockets hk (hlen ▸ hroom)⟩

theorem plenty_runAll {k : Kernel} {es : List FdEvent} (h : runAll quietKernel es = .ret k) : plentySystem.Reach k :=
  reach_runAll_of (S := plentySystem) (fun _ _ _ hs => hs) (.init ⟨quietKernel_boot, fun _ => nofun⟩)
    (fun _ _ _ => trivial) h

/-- No slot of the task holds a file with a socket. -/
def slotsClean (k : Kernel) (t : Nat) : Bool :=
  (List.finRange maxFds).all fun i => ((k.fd (t, i)).bind k.file).all fun x => x.sock = .null

theorem noSockets_of_slots {k : Kernel} {a t : Nat} (htasks : k.tasks = [t]) (h : slotsClean k t) : NoSockets k a := by
  intro u fd f x hh _
  obtain rfl : u = t := List.mem_singleton.mp (htasks ▸ hh.task)
  have hslot := hh.slot
  unfold Kernel.fdAt at hslot
  split at hslot
  · rename_i hlt
    have hx := List.all_eq_true.mp h ⟨fd, hlt⟩ (List.mem_finRange _)
    rw [hslot, Option.bind_some, hh.file, Option.all_some] at hx
    exact of_decide_eq_true hx
  · cases hslot

/-- A task opens `/f` twice, the second time with `O_APPEND`. -/
theorem chunks_of_opened : ∃ k n, plentySystem.Reach k ∧ k.vfs.node 5 = some n ∧ k.vfs.bytes n = [] ∧
    ChunksImmaterial k 5 [] := by
  have hrun : ∃ k n, runAll quietKernel [.spawn (fun _ => .null), .openPath 1 rootCaller (str "/f") 0x42 .null,
      .openPath 1 rootCaller (str "/f") 0x402 .null] = .ret k ∧ k.vfs.node 5 = some n ∧ n.size = 0 ∧
      k.tasks = [1] ∧ slotsClean k 1 ∧ n.mode &&& 0xF000 = sIfreg ∧ n.path = str "/f" ∧ n.synth = false :=
    ⟨_, _, rfl, rfl, rfl, rfl, by decide, by decide, rfl, rfl⟩
  obtain ⟨k, n, hk, hn, hsize, htasks, hslots, hmode, hpath, hreal⟩ := hrun
  have hplain : PlainFile n := by
    refine ⟨⟨hmode, ?_, ?_, ?_⟩, hreal, ?_, ?_⟩
    all_goals rw [hpath]; decide
  have hbytes : k.vfs.bytes n = [] := by
    rw [← List.length_eq_zero_iff, Vfs.length_bytes, hsize]
  have hall := (chunks_immaterial_iff (plenty_runAll hk) hn hplain (by rw [hsize]; decide)).1
    (noSockets_of_slots htasks hslots)
  exact ⟨k, n, plenty_runAll hk, hn, hbytes, hbytes ▸ hall⟩

/-- A task closes a socket, and the file object of the next file it opens is
made in the same memory: what is written to `/f` goes to the socket. -/
theorem write_to_stale_socket : ¬∀ k a n, plentySystem.Reach k → k.vfs.node a = some n → PlainFile n →
    n.size < 2147483648 → ChunksImmaterial k a (k.vfs.bytes n) := by
  intro hall
  have hrun : ∃ k n x, runAll quietKernel [.spawn (fun _ => .null), .socket 1 2 1 0, .close 1 3,
      .openPath 1 rootCaller (str "/f") 0x42 (.slot 0)] = .ret k ∧ k.vfs.node 6 = some n ∧ n.size = 0 ∧
      k.tasks = [1] ∧ k.fdAt 1 3 = some 7 ∧ k.file 7 = some x ∧ x.node = some 6 ∧ x.offset = 0 ∧
      oAppend x.flags = false ∧ x.sock = .slot 0 ∧ n.mode &&& 0xF000 = sIfreg ∧ n.path = str "/f" ∧ n.synth = false :=
    ⟨_, _, _, rfl, rfl, rfl, rfl, rfl, rfl, rfl, rfl, rfl, rfl, by decide, rfl, rfl⟩
  obtain ⟨k, n, x, hk, hn, hsize, htasks, hslot, hx, hnode, hzero, happ, hsock, hmode, hpath, hreal⟩ := hrun
  have hplain : PlainFile n := by
    refine ⟨⟨hmode, ?_, ?_, ?_⟩, hreal, ?_, ?_⟩
    all_goals rw [hpath]; decide
  have hh : Handle k 6 1 3 7 x := ⟨htasks ▸ List.mem_singleton_self 1, by decide, hslot, hx, hnode⟩
  have hwritten := (hall k 6 n (plenty_runAll hk) hn hplain (by rw [hsize]; decide)).written 1 3 7 x hh hzero happ [[9]]
    (show 1 < 2147483648 by decide)
  obtain ⟨p, ⟨hp, -⟩, hvfs⟩ := writeAll_socket hh (by rw [hsock]; decide) hwritten
  -- the file is as empty as before
  have hbytes : k.vfs.bytes n = [] := by
    rw [← List.length_eq_zero_iff, Vfs.length_bytes, hsize]
  rw [Kernel.contents, hvfs, hn, Option.map_some, hbytes] at hp
  exact absurd hp (by decide)

end LiteBSD.Files
