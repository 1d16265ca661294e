/-
# `LiteBSD.Vfs.Dirents` — the bytes of a listing

`vfs_getdents` stores a record for each entry of a directory:

    4 bytes      the number of the entry
    4 bytes      the length of the record, 9 and the length of the name
    the name     and a zero byte

A record that would not fit is passed over, so a listing in a small buffer has
holes; a shorter name may follow one that was left out.  Whatever the buffer,
the bytes are whole records that a reader finds again by going from length to
length (`getdents_encodes`), and they are the directory as a whole when there
is room for it (`fullListing`, which is about the components of paths and not
about prefixes of strings).

The test for room is made on 32-bit words.  It is right because the nodes are
blocks of the kernel heap: a record is shorter than the node it is for, and all
nodes together take up 16 MB at most (`InHeap.count`).
-/
import LiteBSD.Lib.Memory
import LiteBSD.Vfs.Rmdir
import Mathlib.Algebra.Order.BigOperators.Group.Finset
import Mathlib.Order.Interval.Finset.Nat

namespace LiteBSD

open Lib

/-! ## The encoder -/

/-- A buffer of the caller, and how far it is filled. -/
structure OutBuf where
  mem : Nat → UInt8
  written : Nat

/-- The stores of one record. -/
def storeDirent (out : Nat → UInt8) (written : Nat) (d : Dirent) : Nat → UInt8 :=
  let out := overwrite out written (leBytes 4 d.ino)
  let out := overwrite out (written + 4) (leBytes 4 d.reclen)
  let out := overwrite out (written + 8) d.name
  overwrite out (written + 8 + d.name.length) [0]

/-- One record of `vfs_getdents`, and `synth_emit`. -/
def emitDirent (bufsize : Nat) (out : OutBuf) (d : Dirent) : OutBuf :=
  if u32 (out.written + d.reclen) ≤ bufsize then
    ⟨storeDirent out.mem out.written d, u32 (out.written + d.reclen)⟩
  else out

/-- `vfs_getdents` with the buffer it writes to. -/
def vfsGetdentsInto (v : Vfs) (c : Caller) (path : CStr) (buf : Nat → UInt8) (bufsize : Nat) :
    Exec ((Nat → UInt8) × Int) :=
  if bufsize = 0 then .ret (buf, -1)
  else do
    let records ← dirRecords v c path
    match records with
    | none => .ret (buf, -1)
    | some records =>
        let out := records.foldl (emitDirent bufsize) ⟨buf, 0⟩
        .ret (out.mem, int32 out.written)

/-- The reader's side: a record ends where its length says, and its name is
the string in it. -/
def direntCodec : Codec Dirent UInt8 where
  encode d := leBytes 4 d.ino ++ leBytes 4 d.reclen ++ d.name ++ [0]
  decode bytes :=
    let ino := leValue (bytes.take 4)
    let reclen := leValue ((bytes.drop 4).take 4)
    let name := (bytes.drop 8).takeWhile (· ≠ 0)
    if reclen = 9 + name.length ∧ reclen ≤ bytes.length then some (⟨ino, name⟩, bytes.drop reclen) else none

/-- The records in `len` bytes of a buffer, if they are nothing but records. -/
def parseDirents (buf : Nat → UInt8) (len : Nat) : Option (List Dirent) :=
  direntCodec.decodeAll len ((List.range len).map buf)

section Encode

variable {d : Dirent} {records : List Dirent} {out : Nat → UInt8} {bufsize used : Nat}

theorem length_encode (d : Dirent) : (direntCodec.encode d).length = d.reclen := by
  simp only [direntCodec, List.length_append, length_leBytes, List.length_singleton]
  rfl

theorem length_encodeAll (records : List Dirent) : (direntCodec.encodeAll records).length = recordsLen records := by
  rw [Codec.encodeAll, List.length_flatMap, recordsLen]
  exact congrArg List.sum (List.map_congr_left fun d _ => length_encode d)

theorem storeDirent_eq (out : Nat → UInt8) (written : Nat) (d : Dirent) :
    storeDirent out written d = overwrite out written (direntCodec.encode d) := by
  have hhead := overwrite_concat out written (leBytes 4 d.ino) (leBytes 4 d.reclen)
  have hname := overwrite_concat out written (leBytes 4 d.ino ++ leBytes 4 d.reclen) d.name
  have hnul := overwrite_concat out written (leBytes 4 d.ino ++ leBytes 4 d.reclen ++ d.name) [0]
  simp only [List.length_append, length_leBytes, ← Nat.add_assoc] at hhead hname hnul
  simp only [storeDirent, direntCodec, hhead, hname, hnul]

/-- A record is read off the front of what follows it. -/
theorem readsBack (hino : d.ino < 4294967296) (hlen : d.reclen < 4294967296) (hnul : 0 ∉ d.name) :
    direntCodec.ReadsBack d := by
  have hword : ∀ w : Nat, w < 4294967296 → leValue (leBytes 4 w) = w := by
    intro w hw
    rw [leValue_leBytes]
    exact Nat.mod_eq_of_lt hw
  refine ⟨?_, fun rest => ?_⟩
  · rw [← List.length_pos_iff, length_encode]
    exact Nat.succ_pos _
  have hbytes : direntCodec.encode d ++ rest =
      leBytes 4 d.ino ++ (leBytes 4 d.reclen ++ (d.name ++ (0 :: rest))) := by
    simp only [direntCodec, List.append_assoc, List.singleton_append]
  have hfour : ∀ (w : Nat) (bytes : List UInt8), (leBytes 4 w ++ bytes).take 4 = leBytes 4 w ∧
      (leBytes 4 w ++ bytes).drop 4 = bytes := fun w bytes =>
    ⟨List.take_left' (length_leBytes 4 w), List.drop_left' (length_leBytes 4 w)⟩
  have hrest : (direntCodec.encode d ++ rest).drop 8 = d.name ++ (0 :: rest) := by
    rw [hbytes, ← List.drop_drop (i := 4) (j := 4), (hfour _ _).2, (hfour _ _).2]
  have hname : (d.name ++ (0 :: rest)).takeWhile (· ≠ 0) = d.name := by
    have htext : ∀ b ∈ d.name, decide (b ≠ 0) = true := fun b hb =>
      decide_eq_true fun he : b = 0 => hnul (he ▸ hb)
    rw [List.takeWhile_append_of_pos htext, List.takeWhile_cons_of_neg (by simp), List.append_nil]
  have hino' : leValue ((direntCodec.encode d ++ rest).take 4) = d.ino := by
    rw [hbytes, (hfour _ _).1, hword _ hino]
  have hlen' : leValue (((direntCodec.encode d ++ rest).drop 4).take 4) = d.reclen := by
    rw [hbytes, (hfour _ _).2, (hfour _ _).1, hword _ hlen]
  have hall : d.reclen ≤ (direntCodec.encode d ++ rest).length := by
    rw [List.length_append, length_encode]
    exact Nat.le_add_right _ _
  have hreclen : d.reclen = 9 + d.name.length := by
    unfold Dirent.reclen
    omega
  change (if leValue _ = 9 + _ ∧ leValue _ ≤ _ then _ else _) = _
  rw [hino', hlen', hrest, hname, if_pos ⟨hreclen, hall⟩, List.drop_left' (length_encode d)]

/-- The encoder keeps the records that fit, and stores nothing else. -/
theorem foldl_emitDirent (h : used + recordsLen records < 4294967296) :
    records.foldl (emitDirent bufsize) ⟨out, used⟩ =
      ⟨overwrite out used (direntCodec.encodeAll (keepFitting Dirent.reclen bufsize used records)),
        used + recordsLen (keepFitting Dirent.reclen bufsize used records)⟩ := by
  induction records generalizing out used with
  | nil =>
      rw [List.foldl_nil, keepFitting, recordsLen, List.map_nil, List.sum_nil, Nat.add_zero]
      exact congrArg (OutBuf.mk · used) (overwrite_nil out used).symm
  | cons d records ih =>
      have hlen : ∀ rs, recordsLen (d :: rs) = d.reclen + recordsLen rs := fun rs => List.sum_cons
      rw [hlen] at h
      have hword : u32 (used + d.reclen) = used + d.reclen := u32_of_lt (by omega)
      rw [List.foldl_cons, keepFitting]
      by_cases hfits : used + d.reclen ≤ bufsize
      · have hemit : emitDirent bufsize ⟨out, used⟩ d =
            ⟨overwrite out used (direntCodec.encode d), used + d.reclen⟩ := by
          rw [emitDirent, hword, if_pos hfits, storeDirent_eq]
        have hjoin := overwrite_concat out used (direntCodec.encode d)
          (direntCodec.encodeAll (keepFitting Dirent.reclen bufsize (used + d.reclen) records))
        rw [length_encode] at hjoin
        rw [hemit, ih (by omega), if_pos hfits, hlen, hjoin, Nat.add_assoc]
        rfl
      · have hemit : emitDirent bufsize ⟨out, used⟩ d = ⟨out, used⟩ := by
          rw [emitDirent, hword, if_neg hfits]
        rw [hemit, ih (by omega), if_neg hfits]

/-- The buffer holds the records that `vfsGetdents` speaks of. -/
theorem vfsGetdentsInto_eq {v : Vfs} {c : Caller} {path : CStr} (hrec : dirRecords v c path = .ret (some records))
    (hsmall : recordsLen records < 4294967296) (hsize : bufsize ≠ 0) (buf : Nat → UInt8) :
    ∃ out : DirBuf, out = ⟨recordsLen (keepFitting Dirent.reclen bufsize 0 records),
        keepFitting Dirent.reclen bufsize 0 records⟩ ∧
      vfsGetdents v c path bufsize = .ret (some out) ∧
      vfsGetdentsInto v c path buf bufsize =
        .ret (overwrite buf 0 (direntCodec.encodeAll out.records), int32 out.written) := by
  refine ⟨_, rfl, ?_, ?_⟩
  · rw [vfsGetdents, if_neg hsize, hrec, Exec.ret_bind, Option.map_some, emitAll_eq hsmall]
  · rw [vfsGetdentsInto, if_neg hsize, hrec, Exec.ret_bind]
    dsimp only
    rw [foldl_emitDirent (by rwa [Nat.zero_add]), Nat.zero_add]

/-- What the encoder leaves in the buffer is read back. -/
theorem parse_emitted (hrec : ∀ d ∈ records, d.ino < 4294967296 ∧ 0 ∉ d.name)
    (h : recordsLen records < 4294967296) (buf : Nat → UInt8) :
    parseDirents (overwrite buf 0 (direntCodec.encodeAll records)) (recordsLen records) = some records := by
  have hbytes : (List.range (recordsLen records)).map (overwrite buf 0 (direntCodec.encodeAll records)) =
      direntCodec.encodeAll records := by
    have hheld := holdsAt_overwrite buf 0 (direntCodec.encodeAll records)
    refine List.ext_getElem? fun i => ?_
    rw [List.getElem?_map]
    rcases Nat.lt_or_ge i (recordsLen records) with hlt | hge
    · have hcell := hheld i (by rwa [length_encodeAll])
      rw [Nat.zero_add] at hcell
      rw [List.getElem?_range hlt, hcell, Option.map_some]
    · rw [List.getElem?_eq_none (by rwa [List.length_range]), List.getElem?_eq_none (by rwa [length_encodeAll]),
        Option.map_none]
  have hback : ∀ d ∈ records, direntCodec.ReadsBack d := by
    intro d hd
    obtain ⟨hino, hnul⟩ := hrec d hd
    have hle : d.reclen ≤ recordsLen records := List.le_sum_of_mem (List.mem_map_of_mem hd)
    exact readsBack hino (Nat.lt_of_le_of_lt hle h) hnul
  rw [parseDirents, hbytes]
  exact Codec.decodeAll_encodeAll hback (Nat.le_of_eq (length_encodeAll records))

end Encode

/-! ## The directory -/

/-- The name of what is directly in `dir`. -/
def childOf (dir path : CStr) : Option CStr :=
  if (components path).dropLast = components dir then (components path).getLast? else none

/-- The number of the node at the directory above, 1 if there is none. -/
def upNumber (v : Vfs) (dir : CStr) : Nat :=
  ((findNode v (dirPath (components dir).dropLast)).bind fun p => (v.node p).map fun n => n.ino).getD 1

/-- The records of all that is directly in `dir`, in the order of the list. -/
def childEntries (v : Vfs) (dir : CStr) (nodes : List Nat) : List Dirent :=
  nodes.filterMap fun a => (v.node a).bind fun n => (childOf dir n.path).map (Dirent.mk n.ino)

/-- The whole listing of the directory `dir` with the node `n`. -/
def fullListing (v : Vfs) (dir : CStr) (n : Node) : List Dirent :=
  ⟨n.ino, [dot]⟩ :: ⟨upNumber v dir, [dot, dot]⟩ :: childEntries v dir v.nodes

/-- The nodes of the list are blocks of the kernel heap that do not meet. -/
structure InHeap (v : Vfs) (addr : Nat → Nat) : Prop where
  inside : ∀ a ∈ v.nodes, heapStart ≤ addr a ∧ addr a + nodeSize ≤ heapEnd
  apart : ∀ a ∈ v.nodes, ∀ b ∈ v.nodes, a ≠ b → addr a + nodeSize ≤ addr b ∨ addr b + nodeSize ≤ addr a

/-- What the fields of a node can hold: a word, and a string of 255 bytes. -/
structure NodeFields (v : Vfs) : Prop where
  ino : ∀ a n, a = rootAddr ∨ a ∈ v.nodes → v.node a = some n → n.ino < 4294967296
  path : ∀ a ∈ v.nodes, ∀ n, v.node a = some n → n.path.length ≤ 255 ∧ 0 ∉ n.path

section Directory

variable {v : Vfs} {c : Caller} {dir path name : CStr} {names : List CStr} {a : Nat} {n : Node} {addr : Nat → Nat}

/-- Behind a directory in a path there is one name, or more. -/
theorem directName_names (hn : ∀ name ∈ names, IsName name) (hne : names ≠ []) :
    directName ((pathOf names).drop 1) = if names.length = 1 then names.getLast? else none := by
  obtain ⟨name, rest, rfl⟩ := List.exists_cons_of_ne_nil hne
  have hname := hn name List.mem_cons_self
  cases rest with
  | nil =>
      have hone : (pathOf [name]).drop 1 = name := List.append_nil name
      rw [hone, directName, if_pos ⟨hname.1, hname.2.1⟩]
      rfl
  | cons next rest =>
      have hslash : slash ∈ (pathOf (name :: next :: rest)).drop 1 :=
        List.mem_append_right name List.mem_cons_self
      rw [directName, if_neg fun h => h.1 hslash, if_neg (by simp)]

/-- The prefix tests of the loop find what is directly in the directory. -/
theorem childName_eq (hd : NormalPath dir) (hp : NormalPath path) : childName dir path = childOf dir path := by
  obtain ⟨hpath, hnames⟩ := hp.components
  have hgone : ∀ {p q : List CStr}, q ≠ [] →
      (if (p ++ q).dropLast = p then (p ++ q).getLast? else none) = if q.length = 1 then q.getLast? else none := by
    intro p q hq
    rw [List.dropLast_append_of_ne_nil hq, List.getLast?_append_of_ne_nil _ hq]
    refine if_congr ?_ rfl rfl
    rw [List.append_right_eq_self, ← List.length_eq_zero_iff, List.length_dropLast]
    have hpos := List.length_pos_iff.mpr hq
    omega
  by_cases hroot : dir = [slash]
  · subst hroot
    have hnil : components [slash] = [] := rfl
    rw [childName, if_pos rfl, childOf, hnil]
    by_cases hne : components path = []
    · have hslash : path = [slash] := by
        rw [hpath, hne]
        rfl
      rw [hslash]
      rfl
    · have hall : path = pathOf (components path) := hpath.trans (if_neg hne)
      have hlong : path.head? = some slash ∧ path.length > 1 := by
        refine ⟨hp.head, ?_⟩
        obtain ⟨name, rest, hcons⟩ := List.exists_cons_of_ne_nil hne
        have hpos := List.length_pos_iff.mpr (hnames name (hcons ▸ List.mem_cons_self)).2.1
        rw [hall, hcons, pathOf, List.length_cons, List.length_append]
        omega
      have hwhole := @hgone [] _ hne
      rw [List.nil_append] at hwhole
      rw [if_pos hlong, hwhole, ← directName_names hnames hne, ← hall]
  · obtain ⟨hdir, hdne⟩ := normalPath_pathOf hd hroot
    rw [childName, if_neg hroot]
    by_cases hbelow : isBelow dir path = true
    · obtain ⟨rest, hne, hsplit⟩ := (isBelow_names hd hroot hp).mp hbelow
      have hall : path = dir ++ pathOf rest := by
        rw [hpath, hsplit, dirPath, if_neg (List.append_ne_nil_of_left_ne_nil hdne _), pathOf_append, ← hdir]
      have hrest : ∀ name ∈ rest, IsName name := fun name hmem =>
        hnames name (hsplit ▸ List.mem_append_right _ hmem)
      have hdrop : path.drop (dir.length + 1) = (pathOf rest).drop 1 := by
        rw [hall, List.drop_length_add_append]
      rw [if_pos hbelow, hdrop, directName_names hrest hne, childOf, hsplit, hgone hne]
    · rw [if_neg hbelow, childOf]
      split
      · rename_i hparent
        cases hlast : (components path).getLast? with
        | none => rfl
        | some name =>
            have hsplit : components path = components dir ++ [name] := by
              rw [← hparent, List.dropLast_append_getLast? name hlast]
            exact absurd ((isBelow_names hd hroot hp).mpr ⟨[name], List.cons_ne_nil _ _, hsplit⟩) hbelow
      · rfl

theorem parentPath_eq (hd : NormalPath dir) : parentPath dir = dirPath (components dir).dropLast := by
  obtain ⟨hdir, hnames⟩ := hd.components
  rcases List.eq_nil_or_concat (components dir) with hnil | ⟨init, name, hsnoc⟩
  · have hroot : dir = [slash] := by
      rw [hdir, hnil]
      rfl
    rw [hroot]
    rfl
  · rw [List.concat_eq_append] at hsnoc
    have hname := hnames name (hsnoc ▸ List.mem_append_right _ (List.mem_singleton_self _))
    rw [hsnoc, NameStack.dirPath_snoc] at hdir
    have hlen : dir.length = (pathOf init).length + 1 + name.length := by
      rw [hdir, List.length_append, List.length_cons]
      omega
    have htrim := @trimName_name name (pathOf init) [] hname.1
    rw [List.append_nil, ← hdir, ← hlen] at htrim
    rw [hsnoc, List.dropLast_concat, parentPath, htrim, NameStack.dirPath_eq]
    by_cases hinit : pathOf init = []
    · rw [hinit] at hdir ⊢
      rw [hdir]
      rfl
    · have hpos := List.length_pos_iff.mpr hinit
      rw [if_neg hinit]
      simp only [gt_iff_lt, Nat.lt_add_left_iff_pos, hpos, if_true, Nat.add_sub_cancel, Nat.ne_of_gt hpos, if_false]
      rw [hdir, List.take_left]

/-- The nodes that fit into the heap. -/
theorem InHeap.count (h : InHeap v addr) (hnodup : v.nodes.Nodup) : v.nodes.length * nodeSize ≤ heapSize := by
  have hcard : (v.nodes.toFinset.biUnion fun a => Finset.Ico (addr a) (addr a + nodeSize)).card =
      v.nodes.length * nodeSize := by
    have hone : ∀ a ∈ v.nodes.toFinset, (Finset.Ico (addr a) (addr a + nodeSize)).card = nodeSize := by
      intro a _
      rw [Nat.card_Ico, Nat.add_sub_cancel_left]
    rw [Finset.card_biUnion, Finset.sum_const_nat hone, List.toFinset_card_of_nodup hnodup]
    intro a ha b hb hab
    have hsep := h.apart a (List.mem_toFinset.mp ha) b (List.mem_toFinset.mp hb) hab
    refine Finset.disjoint_left.mpr fun i hi hi' => ?_
    rw [Finset.mem_Ico] at hi hi'
    omega
  have hsub : (v.nodes.toFinset.biUnion fun a => Finset.Ico (addr a) (addr a + nodeSize)) ⊆
      Finset.Ico heapStart heapEnd := by
    intro i hi
    obtain ⟨a, ha, hi⟩ := Finset.mem_biUnion.mp hi
    have hin := h.inside a (List.mem_toFinset.mp ha)
    rw [Finset.mem_Ico] at hi ⊢
    omega
  have hle := Finset.card_le_card hsub
  rwa [hcard, Nat.card_Ico] at hle

/-- The loop over the list. -/
theorem childRecords_eq (hnorm : NormalPaths v) (hd : NormalPath dir) {nodes : List Nat}
    (hsub : ∀ a ∈ nodes, a ∈ v.nodes) (hlive : ∀ a ∈ nodes, ∃ n, v.node a = some n) :
    childRecords v dir nodes = .ret (childEntries v dir nodes) := by
  induction nodes with
  | nil => rfl
  | cons a nodes ih =>
      obtain ⟨n, hn⟩ := hlive a List.mem_cons_self
      have hp : NormalPath n.path := by
        refine hnorm a (hsub a List.mem_cons_self) n.path ?_
        rw [Vfs.path, hn, Option.map_some]
      have hrest := ih (fun b hb => hsub b (List.mem_cons_of_mem a hb)) fun b hb =>
        hlive b (List.mem_cons_of_mem a hb)
      have hcons : childEntries v dir (a :: nodes) =
          ((childOf dir n.path).map (Dirent.mk n.ino)).toList ++ childEntries v dir nodes := by
        rw [childEntries, List.filterMap_cons, hn, Option.bind_some]
        cases childOf dir n.path with
        | none => rfl
        | some name => rfl
      rw [childRecords, Vfs.load_live hn, Exec.ret_bind, hrest, Exec.ret_bind, childName_eq hd hp, hcons]

theorem parentIno_eq (ht : NodeTable v) (hd : NormalPath dir) : parentIno v dir = .ret (upNumber v dir) := by
  rw [parentIno, parentPath_eq hd, upNumber]
  cases hfind : findNode v (dirPath (components dir).dropLast) with
  | none => rfl
  | some p =>
      obtain ⟨n, hn⟩ := ht.live (findNode_listed hfind)
      dsimp only
      rw [Vfs.load_live hn, Exec.ret_bind, Option.bind_some, hn]
      rfl

theorem NormalPaths.found (hnorm : NormalPaths v) (h : findNode v dir = some a) : NormalPath dir := by
  unfold findNode at h
  split at h
  · rename_i hroot
    exact ⟨[], List.forall_mem_nil _, hroot⟩
  · have hpath := hasPath_iff.mp (List.find?_some h)
    exact hnorm a (List.mem_of_find?_eq_some h) dir hpath

/-- A directory that is no synthetic entry is listed as a whole. -/
theorem dirRecords_eq (ht : NodeTable v) (hnorm : NormalPaths v) (hs : synthLookup c.pids (c.resolve path) = none)
    (hfind : findNode v (c.resolve path) = some a) (hn : v.node a = some n) (hdir : n.dirBit = true) :
    dirRecords v c path = .ret (some (fullListing v (c.resolve path) n)) := by
  have hd := hnorm.found hfind
  -- the path of a directory has no slash at its end to be taken off
  have hend : ¬((c.resolve path).length > 1 ∧ (c.resolve path)[(c.resolve path).length - 1]? = some slash) := by
    rintro ⟨hlong, hlast⟩
    obtain ⟨hdir, hnames⟩ := hd.components
    rcases List.eq_nil_or_concat (components (c.resolve path)) with hnil | ⟨init, name, hsnoc⟩
    · rw [hnil] at hdir
      rw [hdir] at hlong
      exact absurd hlong (by decide)
    · rw [List.concat_eq_append] at hsnoc
      have hname := hnames name (hsnoc ▸ List.mem_append_right _ (List.mem_singleton_self _))
      rw [hsnoc, NameStack.dirPath_snoc] at hdir
      rw [← List.getLast?_eq_getElem?, hdir, List.getLast?_append_of_ne_nil _ (List.cons_ne_nil _ _),
        List.getLast?_cons_of_ne_nil hname.2.1] at hlast
      exact hname.1 (List.mem_of_getLast? hlast)
  have hchildren := childRecords_eq hnorm hd (fun _ h => h) fun b hb => ht.live (.inr hb)
  simp only [dirRecords, hs, hfind, Vfs.load_live hn, Exec.ret_bind, hdir, Bool.not_true, Bool.false_eq_true, if_false,
    if_neg hend, parentIno_eq ht hd, hchildren, fullListing]

/-- The name of a child comes out of its path. -/
theorem mem_childEntries {nodes : List Nat} {d : Dirent} (h : d ∈ childEntries v dir nodes) :
    ∃ a ∈ nodes, ∃ n, v.node a = some n ∧ d.ino = n.ino ∧ d.name ∈ components n.path := by
  obtain ⟨a, ha, hd⟩ := List.mem_filterMap.mp h
  obtain ⟨n, hn, hd⟩ := Option.bind_eq_some_iff.mp hd
  obtain ⟨name, hname, rfl⟩ := Option.map_eq_some_iff.mp hd
  refine ⟨a, ha, n, hn, rfl, ?_⟩
  rw [childOf, Option.ite_none_right_eq_some] at hname
  exact List.mem_of_getLast? hname.2

/-- A name is a part of the path it is in. -/
theorem normalPath_name (hp : NormalPath path) (h : name ∈ components path) :
    name.length < path.length ∧ ∀ b ∈ name, b ∈ path := by
  obtain ⟨front, rest, hsplit⟩ := List.append_of_mem h
  have hpath : path = pathOf front ++ slash :: (name ++ pathOf rest) := by
    have hwhole := hp.components.1
    rwa [hsplit, dirPath, if_neg (List.append_ne_nil_of_right_ne_nil _ (List.cons_ne_nil _ _)), pathOf_append,
      pathOf] at hwhole
  rw [hpath]
  refine ⟨?_, fun b hb => ?_⟩
  · rw [List.length_append, List.length_cons, List.length_append]
    omega
  · exact List.mem_append_right _ (List.mem_cons_of_mem _ (List.mem_append_left _ hb))

theorem upNumber_lt (ht : NodeTable v) (hf : NodeFields v) (dir : CStr) : upNumber v dir < 4294967296 := by
  unfold upNumber
  cases hfind : findNode v (dirPath (components dir).dropLast) with
  | none => exact (by decide : 1 < 4294967296)
  | some p =>
      have hp := findNode_listed hfind
      obtain ⟨m, hm⟩ := ht.live hp
      rw [Option.bind_some, hm]
      exact hf.ino p m hp hm

/-- A record of the listing can be read back, and is shorter than a node. -/
theorem mem_fullListing (ht : NodeTable v) (hf : NodeFields v) (hnorm : NormalPaths v)
    (ha : a = rootAddr ∨ a ∈ v.nodes) (hn : v.node a = some n) {d : Dirent} (h : d ∈ fullListing v dir n) :
    d.ino < 4294967296 ∧ 0 ∉ d.name ∧ d.reclen ≤ nodeSize := by
  rcases List.mem_cons.mp h with rfl | h
  · exact ⟨hf.ino a n ha hn, (by decide : 0 ∉ [dot]), (by decide : 10 ≤ 316)⟩
  rcases List.mem_cons.mp h with rfl | h
  · exact ⟨upNumber_lt ht hf dir, (by decide : 0 ∉ [dot, dot]), (by decide : 11 ≤ 316)⟩
  · obtain ⟨b, hb, m, hm, hino, hname⟩ := mem_childEntries h
    obtain ⟨hshort, htext⟩ := hf.path b hb m hm
    have hp : NormalPath m.path := by
      refine hnorm b hb m.path ?_
      rw [Vfs.path, hm, Option.map_some]
    obtain ⟨hlen, hbytes⟩ := normalPath_name hp hname
    refine ⟨hino ▸ hf.ino b m (.inr hb) hm, fun hnul => htext (hbytes 0 hnul), ?_⟩
    show 4 + 4 + d.name.length + 1 ≤ 316
    omega

/-- All records of a directory take up less than the heap does, but for two. -/
theorem fullListing_fits (ht : NodeTable v) (hf : NodeFields v) (hnorm : NormalPaths v) (hheap : InHeap v addr)
    (ha : a = rootAddr ∨ a ∈ v.nodes) (hn : v.node a = some n) :
    recordsLen (fullListing v dir n) ≤ heapSize + 2 * nodeSize := by
  have hlen : (fullListing v dir n).length ≤ v.nodes.length + 2 :=
    Nat.add_le_add_right (List.length_filterMap_le _ _) 2
  have hsum : recordsLen (fullListing v dir n) ≤ (fullListing v dir n).length * nodeSize := by
    have hle := List.sum_le_card_nsmul ((fullListing v dir n).map Dirent.reclen) nodeSize fun k hk => by
      obtain ⟨d, hd, rfl⟩ := List.mem_map.mp hk
      exact (mem_fullListing ht hf hnorm ha hn hd).2.2
    rwa [List.length_map, nsmul_eq_mul, Nat.cast_id] at hle
  have hcount := hheap.count ht.nodup
  have hmul := Nat.mul_le_mul_right nodeSize hlen
  rw [Nat.add_mul] at hmul
  omega

end Directory

/-- `vfs_getdents` of a real directory writes whole records into the buffer and
nothing else, those of the directory that fit; all of them if all fit. -/
theorem getdents_encodes {v : Vfs} (ht : NodeTable v) (hf : NodeFields v) (hnorm : NormalPaths v)
    {addr : Nat → Nat} (hheap : InHeap v addr) {c : Caller} {path : CStr} {a : Nat} {n : Node}
    (hs : synthLookup c.pids (c.resolve path) = none) (hfind : findNode v (c.resolve path) = some a)
    (hn : v.node a = some n) (hdir : n.dirBit = true) (buf : Nat → UInt8) (bufsize : Nat) :
    ∃ buf' ret records, vfsGetdentsInto v c path buf bufsize = .ret (buf', ret) ∧
      ret.toNat ≤ bufsize ∧ (∀ i, ret.toNat ≤ i → buf' i = buf i) ∧
      parseDirents buf' ret.toNat = some records ∧
      records.Sublist (fullListing v (c.resolve path) n) ∧
      (recordsLen (fullListing v (c.resolve path) n) ≤ bufsize →
        records = fullListing v (c.resolve path) n) := by
  have hlisted := findNode_listed hfind
  have hall : recordsLen (fullListing v (c.resolve path) n) ≤ heapSize + 2 * nodeSize :=
    fullListing_fits ht hf hnorm hheap hlisted hn
  have hrec : ∀ d ∈ fullListing v (c.resolve path) n, d.ino < 4294967296 ∧ 0 ∉ d.name := fun d hd =>
    ⟨(mem_fullListing ht hf hnorm hlisted hn hd).1, (mem_fullListing ht hf hnorm hlisted hn hd).2.1⟩
  have hrun := dirRecords_eq ht hnorm hs hfind hn hdir
  generalize fullListing v (c.resolve path) n = records at *
  have hbound : heapSize + 2 * nodeSize < 2147483648 := by decide
  by_cases hzero : bufsize = 0
  · subst hzero
    refine ⟨buf, -1, [], if_pos rfl, Nat.le_refl 0, fun _ _ => rfl, rfl, List.nil_sublist _, fun hroom => ?_⟩
    cases records with
    | nil => rfl
    | cons d records =>
        have hpos : recordsLen (d :: records) = d.reclen + recordsLen records := List.sum_cons
        rw [hpos, Dirent.reclen] at hroom
        omega
  · obtain ⟨out, hout, -, hinto⟩ := vfsGetdentsInto_eq hrun (by omega) hzero buf
    -- what fits is kept
    have hkept : (keepFitting Dirent.reclen bufsize 0 records).Sublist records := keepFitting_sublist
    have hfits := @keepFitting_fits _ Dirent.reclen bufsize 0 records (Nat.zero_le _)
    have hevery := @keepFitting_all _ Dirent.reclen bufsize 0 records
    generalize keepFitting Dirent.reclen bufsize 0 records = kept at *
    subst hout
    rw [Nat.zero_add] at hfits hevery
    have hsmall : recordsLen kept ≤ recordsLen records :=
      (hkept.map Dirent.reclen).sum_le_sum fun _ _ => Nat.zero_le _
    have hret : int32 (recordsLen kept) = (recordsLen kept : Int) := if_pos (by omega)
    refine ⟨overwrite buf 0 (direntCodec.encodeAll kept), (recordsLen kept : Int), kept, ?_, hfits, fun i hi => ?_, ?_,
      hkept, hevery⟩
    · rw [hinto, hret]
    · rw [Int.toNat_natCast] at hi
      exact overwrite_apart (.inr (by rwa [length_encodeAll, Nat.zero_add]))
    · rw [Int.toNat_natCast]
      exact parse_emitted (fun d hd => hrec d (hkept.subset hd)) (by omega) buf

/-- With 31 bytes for the root, the record of `/de` is passed over and that of
`/d` is written. -/
theorem listing_with_hole : ∃ v, vfsCalls (emptyVfs (memoryOf 0) none) emptySibling = .ret v ∧
    (∃ buf' ret records, vfsGetdentsInto v rootCaller (str "/") (fun _ => 0) 31 = .ret (buf', ret) ∧
      ret.toNat ≤ 31 ∧ (∀ i, ret.toNat ≤ i → buf' i = 0) ∧ parseDirents buf' ret.toNat = some records ∧
      records.Sublist (fullListing v (str "/") rootNode) ∧
      (recordsLen (fullListing v (str "/") rootNode) ≤ 31 → records = fullListing v (str "/") rootNode)) ∧
    fullListing v (str "/") rootNode = [⟨1, [dot]⟩, ⟨1, [dot, dot]⟩, ⟨4, str "de"⟩, ⟨2, str "d"⟩] ∧
    vfsGetdents v rootCaller (str "/") 31 = .ret (some ⟨31, [⟨1, [dot]⟩, ⟨1, [dot, dot]⟩, ⟨2, str "d"⟩]⟩) := by
  have hv : ∃ v, vfsCalls (emptyVfs (memoryOf 0) none) emptySibling = .ret v ∧ v.nodes = [3, 2, 1] ∧
      v.node rootAddr = some rootNode ∧
      ((rootAddr :: v.nodes).all fun a => (v.node a).all fun n => decide (n.ino < 4294967296)) = true ∧
      (v.nodes.all fun a => (v.node a).all fun n => decide (n.path.length ≤ 255 ∧ 0 ∉ n.path)) = true ∧
      fullListing v (str "/") rootNode = [⟨1, [dot]⟩, ⟨1, [dot, dot]⟩, ⟨4, str "de"⟩, ⟨2, str "d"⟩] ∧
      vfsGetdents v rootCaller (str "/") 31 = .ret (some ⟨31, [⟨1, [dot]⟩, ⟨1, [dot, dot]⟩, ⟨2, str "d"⟩]⟩) :=
    ⟨_, rfl, rfl, rfl, by decide, by decide, by decide, rfl⟩
  obtain ⟨v, hv, hnodes, hroot, hino, hpath, hfull, hlist⟩ := hv
  have hreach := reach_vfsCalls (S := vfsSystem) id (.init ⟨memoryOf 0, none, rfl⟩) emptySibling hv
  obtain ⟨w, hw, hnorm⟩ := emptySibling_normal
  obtain rfl : v = w := Exec.ret.inj (hv.symm.trans hw)
  have hf : NodeFields v := by
    refine ⟨fun a n ha hn => ?_, fun a ha n hn => ?_⟩
    · have hall := List.all_eq_true.mp hino a (List.mem_cons.mpr ha)
      rw [hn] at hall
      exact of_decide_eq_true hall
    · have hall := List.all_eq_true.mp hpath a ha
      rw [hn] at hall
      exact of_decide_eq_true hall
  have hheap : InHeap v fun a => heapStart + 400 * a := by
    refine ⟨fun a ha => ?_, fun a _ b _ hab => ?_⟩
    · have hle : a ≤ 3 := by
        rw [hnodes] at ha
        simp only [List.mem_cons, List.not_mem_nil, or_false] at ha
        omega
      have hend : heapStart + 400 * 3 + nodeSize ≤ heapEnd := by decide
      omega
    · have hsize : nodeSize ≤ 400 := by decide
      omega
  exact ⟨v, hv, @getdents_encodes v (.of_reach hreach) hf hnorm _ hheap rootCaller (str "/") rootAddr rootNode rfl rfl
    hroot rfl (fun _ => 0) 31, hfull, hlist⟩

end LiteBSD
