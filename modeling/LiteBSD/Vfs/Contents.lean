/-
# `LiteBSD.Vfs.Contents` — a regular file against a list of bytes

What a file IS, for a program, is a list of bytes: `refWrite`, `refTruncate`
and `refRead` say what the three operations do to it.  `vfs_write` and
`vfs_truncate` keep a buffer, a capacity and a size instead, and this module
compares the two along any run of writes and truncations.

They agree as long as no write starts beyond the end of the file.  A write
that does leaves the gap as it is, with whatever the buffer held there:
`vfs_truncate` clears the bytes it adds, `vfs_write` does not.
-/
import LiteBSD.Vfs.Isolation

namespace LiteBSD

open Lib

/-- `buffer` stored at `offset`; a gap before it is filled with zeros. -/
def refWrite (file : List UInt8) (offset : Nat) (buffer : List UInt8) : List UInt8 :=
  file.take offset ++ List.replicate (offset - file.length) 0 ++ buffer ++
    file.drop (offset + buffer.length)

/-- The file cut, or extended with zeros, to `length` bytes. -/
def refTruncate (file : List UInt8) (length : Nat) : List UInt8 :=
  file.take length ++ List.replicate (length - file.length) 0

/-- At most `count` bytes from `offset` on. -/
def refRead (file : List UInt8) (offset count : Nat) : List UInt8 :=
  (file.drop offset).take count

inductive FileOp where
  | write (offset : Nat) (buffer : List UInt8)
  | truncate (length : Nat)

/-- Offsets and lengths are `unsigned int`. -/
def FileOp.wordSized : FileOp → Prop
  | .write offset buffer => offset < 4294967296 ∧ buffer.length < 4294967296
  | .truncate length => length < 4294967296

/-- The operation on the node at `a`. -/
def fileOp (v : Vfs) (a : Nat) : FileOp → Exec (Vfs × Int)
  | .write offset buffer => vfsWrite v a offset buffer
  | .truncate length => vfsTruncate v a length

/-- The operation on the reference file. -/
def refOp (file : List UInt8) : FileOp → List UInt8
  | .write offset buffer => refWrite file offset buffer
  | .truncate length => refTruncate file length

/-- A regular file that is not a device. -/
def Regular (n : Node) : Prop :=
  n.mode &&& 0xF000 = sIfreg ∧ n.path ≠ devNull ∧ n.path ≠ devZero ∧ n.path ≠ devFb0

/-- The node at `a` and its reference file side by side, from any state of
the file system on, through operations that return success. -/
def fileSystem (a : Nat) : System (Vfs × List UInt8) FileOp where
  init := fun s => blobSystem.Reach s.1 ∧
    ∃ n, s.1.node a = some n ∧ Regular n ∧ s.2 = s.1.bytes n
  step := fun s op s' => op.wordSized ∧ s'.2 = refOp s.2 op ∧
    ∃ ret, fileOp s.1 a op = .ret (s'.1, ret) ∧ ret ≠ -1

/-- A write starts inside the file or at its end. -/
def NoGap (a : Nat) (s : Vfs × List UInt8) : FileOp → Prop
  | .write offset _ => ∀ n, s.1.node a = some n → offset ≤ n.size
  | .truncate _ => True

section Contents

variable {v v' : Vfs} {a : Nat} {n n' : Node}

theorem Vfs.length_bytes (v : Vfs) (n : Node) : (v.bytes n).length = n.size := by
  simp [Vfs.bytes]

theorem Vfs.getElem?_bytes {i : Nat} (hi : i < n.size) : (v.bytes n)[i]? = some (v.byte n i) := by
  simp [Vfs.bytes, hi]

/-- A list is the bytes of a node when it has them at every index. -/
theorem Vfs.bytes_eq {file : List UInt8} (hlen : file.length = n.size)
    (hget : ∀ i, i < n.size → file[i]? = some (v.byte n i)) : v.bytes n = file := by
  refine List.ext_getElem? fun i => ?_
  by_cases hi : i < n.size
  · rw [Vfs.getElem?_bytes hi, hget i hi]
  · rw [List.getElem?_eq_none (by rw [Vfs.length_bytes]; omega),
      List.getElem?_eq_none (by omega)]

theorem bytes_of_written {offset : Nat} {buffer : List UInt8} (hoff : offset ≤ n.size)
    (hwrap : u32 (offset + buffer.length) = offset + buffer.length)
    (h : Written v v' n n' offset buffer) :
    v'.bytes n' = refWrite (v.bytes n) offset buffer := by
  have hsize := h.size
  rw [hwrap] at hsize
  have hlen := Vfs.length_bytes v n
  have hzero : List.replicate (offset - (v.bytes n).length) (0 : UInt8) = [] := by
    rw [hlen, Nat.sub_eq_zero_of_le hoff]
    rfl
  have htake : ((v.bytes n).take offset).length = offset := by
    rw [List.length_take, hlen, Nat.min_eq_left hoff]
  unfold refWrite
  rw [hzero, List.append_nil]
  refine Vfs.bytes_eq ?_ fun i hi => ?_
  · rw [List.length_append, List.length_append, htake, List.length_drop, hlen, hsize]
    omega
  · rw [h.bytes i (by omega)]
    by_cases hlo : i < offset
    · -- before the buffer
      rw [List.append_assoc, List.getElem?_append_left (by omega), List.getElem?_take_of_lt hlo,
        if_neg (by omega), Vfs.getElem?_bytes (by omega)]
    · by_cases hhi : i < offset + buffer.length
      · -- in the buffer
        have hget : i - offset < buffer.length := by omega
        rw [List.append_assoc, List.getElem?_append_right (by omega), htake,
          List.getElem?_append_left hget, if_pos ⟨by omega, hhi⟩, List.getElem?_eq_getElem hget]
        rfl
      · -- behind it
        rw [List.getElem?_append_right (by rw [List.length_append, htake]; omega),
          List.length_append, htake, List.getElem?_drop, if_neg (by omega),
          Nat.add_sub_of_le (by omega), Vfs.getElem?_bytes (by omega)]

theorem bytes_of_truncated {length : Nat} (h : Truncated v v' n n' length) :
    v'.bytes n' = refTruncate (v.bytes n) length := by
  have hlen := Vfs.length_bytes v n
  refine Vfs.bytes_eq ?_ fun i hi => ?_
  · rw [refTruncate, List.length_append, List.length_take, List.length_replicate, hlen, h.size]
    omega
  · rw [h.size] at hi
    rw [h.bytes i hi, refTruncate]
    by_cases hin : i < n.size
    · rw [if_pos hin, List.getElem?_append_left (by rw [List.length_take]; omega),
        List.getElem?_take_of_lt hi, Vfs.getElem?_bytes hin]
    · rw [if_neg hin, List.getElem?_append_right (by rw [List.length_take]; omega),
        List.length_take, List.getElem?_replicate, if_pos (by omega)]

theorem Regular.of_label (h : Regular n) (hl : n'.toLabel = n.toLabel) : Regular n' := by
  unfold Regular at h ⊢
  rw [show n'.mode = n.mode from congrArg Label.mode hl,
    show n'.path = n.path from congrArg Label.path hl]
  exact h

theorem Regular.not_dir (h : Regular n) : n.dirBit = false := by
  -- the directory bit is one of the four the kind is read from
  have hbit : n.mode &&& sIfdir = 0 := by
    calc n.mode &&& sIfdir = (n.mode &&& 0xF000) &&& sIfdir := by rw [Nat.and_assoc]; rfl
      _ = 0 := by rw [h.1]; rfl
  simp [Node.dirBit, hbit]

theorem Regular.not_symlink (h : Regular n) : isSymlinkNode n = false := by
  rw [isSymlinkNode, h.1]
  rfl

/-- A regular file that can be written to is written by `writeData`. -/
theorem writeData_of_vfsWrite {offset : Nat} {buffer : List UInt8} {ret : Int} (hreg : Regular n)
    (hn : v.node a = some n) (hw : vfsWrite v a offset buffer = .ret (v', ret)) (hret : ret ≠ -1) :
    writeData v a offset buffer = .ret (v', ret) := by
  rw [vfsWrite, Exec.bind_eq_ret] at hw
  obtain ⟨n₀, hn₀, hw⟩ := hw
  obtain rfl : n = n₀ := Option.some.inj (hn.symm.trans (Vfs.load_ret hn₀))
  rw [if_neg (by simp [hreg.not_dir]), if_neg (by simp [hreg.not_symlink])] at hw
  split at hw
  · cases hw
    exact absurd rfl hret
  · rwa [if_neg hreg.2.1, if_neg hreg.2.2.1, if_neg hreg.2.2.2] at hw

/-- What the run carries along. -/
structure Matches (a : Nat) (s : Vfs × List UInt8) : Prop where
  inv : BlobInv s.1
  table : NodeTable s.1
  same : ∃ n, s.1.node a = some n ∧ Regular n ∧ s.1.bytes n = s.2

theorem Matches.step {s s' : Vfs × List UInt8} {op : FileOp} (h : Matches a s)
    (hgap : NoGap a s op) (hs : (fileSystem a).step s op s') : Matches a s' := by
  obtain ⟨v, file⟩ := s
  obtain ⟨v', file'⟩ := s'
  obtain ⟨hword, hfile, ret, hop, hret⟩ := hs
  obtain ⟨hinv, ht, n, hn, hreg, hbytes⟩ := h
  dsimp only at hinv ht hn hbytes hfile hop
  subst hbytes hfile
  cases op with
  | write offset buffer =>
      obtain ⟨n', hwork, ⟨_, hfail, _⟩ | ⟨hle, _, hwritten⟩⟩ :=
        writeData_spec hinv ht.nodup hn (writeData_of_vfsWrite hreg hn hop hret)
      · exact absurd hfail hret
      · have hwrap : u32 (offset + buffer.length) = offset + buffer.length := by
          obtain ⟨hoff, hlen⟩ := hword
          unfold u32 at hle ⊢
          omega
        exact ⟨hwork.inv, ht.of_sameNames (.of_vfsWrite hop), n', hwork.node,
          hreg.of_label hwritten.label, bytes_of_written (hgap n hn) hwrap hwritten⟩
  | truncate length =>
      rcases vfsTruncate_spec hinv ht.nodup hn hop with ⟨hfail, _⟩ | ⟨_, n', hwork, htr⟩
      · exact absurd hfail hret
      · exact ⟨hwork.inv, ht.of_sameNames (.of_vfsTruncate hop), n', hwork.node,
          hreg.of_label htr.label, bytes_of_truncated htr⟩

/-- Reading gives the bytes of the node. -/
theorem vfsRead_of_regular (h : BlobInv v) (hn : v.node a = some n) (hreg : Regular n)
    (offset count : Nat) :
    vfsRead v a offset count = .ret (refRead (v.bytes n) offset count,
      int32 (refRead (v.bytes n) offset count).length) := by
  have hlen := Vfs.length_bytes v n
  rw [vfsRead, Vfs.load, hn]
  dsimp only [Exec.ret_bind]
  rw [if_neg (by simp [hreg.not_dir]), if_neg (by simp [hreg.not_symlink]), if_neg hreg.2.1,
    if_neg hreg.2.2.1, if_neg hreg.2.2.2]
  by_cases hoff : offset ≥ n.size
  · rw [if_pos hoff, refRead, List.drop_eq_nil_of_le (by omega), List.take_nil]
    rfl
  rw [if_neg hoff]
  by_cases hcount : min count (n.size - offset) = 0
  · have hzero : count = 0 := by omega
    rw [if_pos hcount, hzero, refRead, List.take_zero]
    rfl
  rw [if_neg hcount]
  cases hd : n.data with
  | none =>
      have hroom := h.room a n hn
      rw [h.bare a n hn hd] at hroom
      omega
  | some d =>
      obtain ⟨m, hm, hcap⟩ := h.held a n d hn hd
      have hroom := h.room a n hn
      dsimp only
      rw [Vfs.loadBuf, hm]
      dsimp only [Exec.ret_bind]
      have hread : m.read offset (min count (n.size - offset)) =
          refRead (v.bytes n) offset count := by
        refine List.ext_getElem? fun i => ?_
        unfold Buf.read refRead
        by_cases hi : i < min count (n.size - offset)
        · rw [List.getElem?_map, List.getElem?_range hi, List.getElem?_take_of_lt (by omega),
            List.getElem?_drop, Vfs.getElem?_bytes (by omega), byte_eq hd hm]
          rfl
        · rw [List.getElem?_eq_none (by simp; omega), List.getElem?_eq_none (by simp [hlen]; omega)]
      rw [if_pos (by omega), hread]
      congr 2
      rw [refRead, List.length_take, List.length_drop, hlen]

end Contents

/-- In every run of successful writes and truncations on a regular file in
which no write starts beyond the end, every read returns the bytes of the
reference file. -/
theorem file_is_its_bytes {a : Nat} {v : Vfs} {file : List UInt8}
    (h : (fileSystem a).ReachVia (NoGap a) (v, file)) (offset count : Nat) :
    vfsRead v a offset count = .ret (refRead file offset count,
      int32 (refRead file offset count).length) := by
  have hm : Matches a (v, file) := by
    refine System.ReachVia.invariant ?_ (fun _ _ _ hi hg hs => hi.step hg hs) h
    rintro s ⟨hreach, n, hn, hreg, hbytes⟩
    obtain ⟨hinv, ht⟩ := BlobInv.of_reach hreach
    exact ⟨hinv, ht, n, hn, hreg, hbytes.symm⟩
  obtain ⟨hinv, _, n, hn, hreg, hbytes⟩ := hm
  dsimp only at hinv hn hbytes
  rw [← hbytes]
  exact vfsRead_of_regular hinv hn hreg offset count

/-- One more operation. -/
theorem fileSystem_step {a : Nat} {v v' : Vfs} {file : List UInt8} {e : FileOp} {ret : Int}
    {G : Vfs × List UInt8 → FileOp → Prop} (h : (fileSystem a).ReachVia G (v, file))
    (hop : fileOp v a e = .ret (v', ret)) (hret : ret ≠ -1) (hword : e.wordSized)
    (hg : G (v, file) e) : (fileSystem a).ReachVia G (v', refOp file e) :=
  h.step hg ⟨hword, rfl, ret, hop, hret⟩

/-- The file `/f`, just made, in memory that is full of `0xAA`. -/
theorem fileSystem_init_f : ∃ v, vfsCalls (emptyVfs (memoryOf 0xAA) none)
    [.openPath rootCaller (str "/f") 0x40] = .ret v ∧ (fileSystem 1).init (v, []) := by
  refine ⟨_, rfl, ?_, _, rfl, ⟨by decide, by decide, by decide, by decide⟩, rfl⟩
  exact reach_vfsCalls (S := blobSystem) id
    (.init ⟨⟨memoryOf 0xAA, none, rfl⟩, fun _ h => by cases h⟩)
    [.openPath rootCaller (str "/f") 0x40] rfl

/-- A write, a cut and a write at the new end, read back. -/
theorem read_after_append : ∃ v, (fileSystem 1).ReachVia (NoGap 1) (v, [1, 9]) ∧
    vfsRead v 1 0 10 = .ret ([1, 9], 2) := by
  obtain ⟨v, hv, hinit⟩ := fileSystem_init_f
  cases hv
  have h₁ := fileSystem_step (G := NoGap 1) (e := .write 0 [1, 2, 3]) (.init hinit) rfl (by decide)
    ⟨by decide, by decide⟩ (fun _ _ => Nat.zero_le _)
  have h₂ := fileSystem_step (e := .truncate 1) h₁ rfl (by decide)
    (show 1 < 4294967296 by decide) trivial
  have h₃ := fileSystem_step (e := .write 1 [9]) h₂ rfl (by decide) ⟨by decide, by decide⟩
    fun n hn => by cases hn; decide
  exact ⟨_, h₃, file_is_its_bytes h₃ 0 10⟩

/-- One byte written at offset 2 of the empty file: the two before it are
what memory held, where the reference file has zeros. -/
theorem gap_not_zeroed : ¬∀ a v file, (fileSystem a).Reach (v, file) → ∀ offset count,
    vfsRead v a offset count = .ret (refRead file offset count,
      int32 (refRead file offset count).length) := by
  intro hall
  obtain ⟨v, hv, hinit⟩ := fileSystem_init_f
  cases hv
  have h := fileSystem_step (G := fun _ _ => True) (e := .write 2 [7]) (.init hinit) rfl (by decide)
    ⟨by decide, by decide⟩ trivial
  exact absurd (hall 1 _ _ h 0 3) (by decide)

end LiteBSD
