/-
# `LiteBSD.Vfs.FileMap` — the file system as a map from paths to contents

What the list of nodes is for, in its own terms (`FileMap`): under each path there
is at most one entry, a kind with its bytes, and a handle goes with an entry to
wherever that is moved.  There are no directories that hold anything, no nodes,
no buffers and no counters; a hard link is a COPY.

Each call does one of five things to it (`FileMap.Step`): it makes an entry, takes
one away, exchanges the bytes of one, carries all of them along a function of
their paths, or does nothing; and which of these, and to what, is told by the
map alone.  The state machine of the calls refines this one, as long as each
rename of a directory finds room for what is below (`vfs_refines_files`), and
what a program sees through a handle or under a path is what is in the map.
-/
import LiteBSD.Lib.Table
import LiteBSD.Vfs.Contents
import LiteBSD.Vfs.Growth

namespace LiteBSD

open Lib

/-! ## The map -/

/-- What is under a path. -/
structure FileEntry where
  mode : Nat
  bytes : List UInt8
deriving DecidableEq, Repr

def FileEntry.isDir (e : FileEntry) : Bool := e.mode &&& sIfdir ≠ 0

def FileEntry.isLink (e : FileEntry) : Bool := e.mode &&& 0xF000 = sIflnk

/-- The entries by their paths, and where the entry behind a handle is now. -/
structure FileMap where
  entry : CStr → Option FileEntry
  name : Nat → Option CStr

namespace FileMap

/-- One more entry, behind a handle that was free. -/
def Creates (s : FileMap) (path : CStr) (e : FileEntry) (s' : FileMap) : Prop :=
  ∃ a, s.name a = none ∧ s' = ⟨Function.update s.entry path (some e), Function.update s.name a (some path)⟩

/-- One entry less; the handle dangles. -/
def Removes (s : FileMap) (path : CStr) (s' : FileMap) : Prop :=
  ∃ a, s.name a = some path ∧ s' = ⟨Function.update s.entry path none, Function.update s.name a none⟩

/-- The entries and the handles, carried along. -/
def Moves (s : FileMap) (f : CStr → CStr) (s' : FileMap) : Prop :=
  Carried f s.entry s'.entry ∧ s'.name = fun a => (s.name a).map f

def store (s : FileMap) (path : CStr) (e : FileEntry) : FileMap :=
  { s with entry := Function.update s.entry path (some e) }

/-- The path and the entry of a handle. -/
def held (s : FileMap) (a : Nat) : Option (CStr × FileEntry) :=
  (s.name a).bind fun p => (s.entry p).map fun e => (p, e)

/-- Is there something below the path? -/
def HasBelow (s : FileMap) (path : CStr) : Prop := ∃ p, s.entry p ≠ none ∧ isBelow path p = true

/-- Where a path goes when `old` becomes `new`, with all that is below if `old`
is a directory.  There is room for 255 bytes. -/
def moved (dir : Bool) (old new path : CStr) : CStr :=
  if path = old then new
  else if dir ∧ isBelow old path then (new ++ path.drop old.length).take 255
  else path

/-- The bytes after a write.  What is between the old end and `offset` is open. -/
structure Overwrites (old : List UInt8) (offset : Nat) (buffer new : List UInt8) : Prop where
  length : new.length = max old.length (u32 (offset + buffer.length))
  written : ∀ i, offset ≤ i → i < offset + buffer.length → i < new.length → new[i]? = buffer[i - offset]?
  kept : ∀ i, i < old.length → i < offset ∨ offset + buffer.length ≤ i → new[i]? = old[i]?

/-- A path that no synthetic entry has. -/
def real (c : Caller) (path : CStr) : Bool := (synthLookup c.pids path).isNone

/-- Something is done under a condition, and nothing otherwise. -/
def Tries (s s' : FileMap) (condition effect : Prop) : Prop := condition ∧ effect ∨ ¬condition ∧ s' = s

/-- What a call does. -/
def Step (s s' : FileMap) : VfsCall → Prop
  | .openPath c path flags =>
      let p := c.resolve path
      s.Tries s' (real c p ∧ s.entry p = none ∧ oCreat flags ∧ lengthOk p) (s.Creates p ⟨sIfreg, []⟩ s')
  | .mkdir c path =>
      let p := c.resolve path
      s.Tries s' (real c p ∧ s.entry p = none ∧ pathOk p) (s.Creates p ⟨sIfdir, []⟩ s')
  | .symlink c target linkpath =>
      let p := c.resolve linkpath
      let text := target.take 255
      s.Tries s' (real c p ∧ s.entry p = none ∧ pathOk p ∧ text ≠ []) (s.Creates p ⟨sIflnk, text⟩ s')
  | .link c path targetPath =>
      let p := c.resolve path
      let t := c.resolve targetPath
      match s.entry t with
      | none => s' = s
      | some e =>
          s.Tries s' (real c p ∧ real c t ∧ e.isDir = false ∧ s.entry p = none ∧ pathOk p) (s.Creates p e s')
  | .unlink c path =>
      let p := c.resolve path
      s.Tries s' (real c p ∧ p ≠ [slash] ∧ s.entry p ≠ none) (s.Removes p s')
  | .rmdir c path =>
      let p := c.resolve path
      s.Tries s' (real c p ∧ p ≠ [slash] ∧ (∃ e, s.entry p = some e ∧ e.isDir ∧ ¬e.isLink) ∧ ¬s.HasBelow p) (s.Removes p s')
  | .rename c oldpath newpath =>
      let old := c.resolve oldpath
      let new := c.resolve newpath
      match s.entry old with
      | none => s' = s
      | some e =>
          s.Tries s' (real c old ∧ real c new ∧ old ≠ [slash] ∧ new ≠ [slash] ∧ old ≠ new ∧ s.entry new = none)
            (s.Moves (moved e.isDir old new) s')
  | .write a offset buffer =>
      match s.held a with
      | none => s' = s
      | some (p, e) =>
          s.Tries s' (¬e.isDir ∧ ¬e.isLink ∧ ¬devicePath p ∧ offset ≤ u32 (offset + buffer.length))
            (∃ new, Overwrites e.bytes offset buffer new ∧ s' = s.store p { e with bytes := new })
  | .truncate a length =>
      match s.held a with
      | none => s' = s
      | some (p, e) => s.Tries s' (¬e.isDir ∧ ¬e.isLink) (s' = s.store p { e with bytes := refTruncate e.bytes length })
  | .close _ => s' = s

end FileMap

/-- The root, and nothing else. -/
def noFiles : FileMap where
  entry := Function.update (fun _ => none) [slash] (some ⟨sIfdir, []⟩)
  name := Function.update (fun _ => none) rootAddr (some [slash])

def filesSystem : System FileMap VfsCall where
  init := fun s => s = noFiles
  step := fun s call s' => s.Step s' call

/-! ## The map of a list of nodes -/

/-- The path under which the node at `a` is found. -/
def Vfs.nameAt (v : Vfs) (a : Nat) : Option CStr :=
  if a = rootAddr then some [slash] else if a ∈ v.nodes then v.path a else none

def Vfs.entryAt (v : Vfs) (a : Nat) : Option FileEntry := (v.node a).map fun n => ⟨n.mode, v.bytes n⟩

def Vfs.files (v : Vfs) : FileMap where
  entry path := (findNode v path).bind v.entryAt
  name := v.nameAt

/-- What the run has to keep. -/
structure FilesInv (v : Vfs) : Prop where
  blobs : BlobInv v
  table : NodeTable v
  unique : UniquePaths v

section Table

variable {v v' : Vfs} {a : Nat} {n : Node} {p : CStr} {e : FileEntry}

theorem nameAt_root (v : Vfs) : v.nameAt rootAddr = some [slash] := if_pos rfl

theorem NodeTable.ne_root (ht : NodeTable v) (ha : a ∈ v.nodes) : a ≠ rootAddr :=
  fun he => ht.rootOff (he ▸ ha)

theorem NodeTable.nameAt (ht : NodeTable v) (ha : a ∈ v.nodes) : v.nameAt a = v.path a := by
  rw [Vfs.nameAt, if_neg (ht.ne_root ha), if_pos ha]

theorem nameAt_cases (h : v.nameAt a = some p) : a = rootAddr ∧ p = [slash] ∨ a ∈ v.nodes ∧ v.path a = some p := by
  unfold Vfs.nameAt at h
  split at h
  · rename_i ha
    exact .inl ⟨ha, (Option.some.inj h).symm⟩
  split at h
  · rename_i ha
    exact .inr ⟨ha, h⟩
  · cases h

/-- What is not listed and not the root has no name. -/
theorem nameAt_none (hroot : a ≠ rootAddr) (ha : a ∉ v.nodes) : v.nameAt a = none := by
  rw [Vfs.nameAt, if_neg hroot, if_neg ha]

theorem entryAt_eq (hn : v.node a = some n) : v.entryAt a = some ⟨n.mode, v.bytes n⟩ := by
  rw [Vfs.entryAt, hn, Option.map_some]

theorem FilesInv.apart (h : FilesInv v) : KeysApart v.nameAt := by
  obtain ⟨huniq, hslash⟩ := (uniquePaths_iff h.table.nodup).mp h.unique
  intro x y p hx hy
  rcases nameAt_cases hx with ⟨rfl, rfl⟩ | ⟨hxn, hxp⟩ <;> rcases nameAt_cases hy with ⟨rfl, hp⟩ | ⟨hyn, hyp⟩
  · rfl
  · exact absurd hyp (hslash y hyn)
  · rw [hp] at hxp
    exact absurd hxp (hslash x hxn)
  · exact huniq x hxn y hyn (hxp.trans hyp.symm)

/-- The node with a name is the one that a search finds. -/
theorem FilesInv.findNode_iff (h : FilesInv v) : findNode v p = some a ↔ v.nameAt a = some p := by
  have hfound : ∀ {b}, findNode v p = some b → v.nameAt b = some p := by
    intro b hb
    by_cases hp : p = [slash]
    · rw [findNode, if_pos hp] at hb
      cases hb
      rw [nameAt_root, hp]
    · obtain ⟨hbn, hbp⟩ := findNode_path hb hp
      rw [h.table.nameAt hbn, hbp]
  refine ⟨hfound, fun ha => ?_⟩
  obtain ⟨b, hb⟩ : ∃ b, findNode v p = some b := by
    rcases nameAt_cases ha with ⟨-, rfl⟩ | ⟨han, hap⟩
    · exact ⟨rootAddr, rfl⟩
    · refine Option.ne_none_iff_exists'.mp fun hnone => ?_
      exact (findNode_eq_none hnone).2 (List.mem_map.mpr ⟨a, han, hap⟩)
  rw [hb, h.apart b a p (hfound hb) ha]

theorem FilesInv.live (h : FilesInv v) (ha : v.nameAt a = some p) : ∃ n, v.node a = some n := by
  refine h.table.live ?_
  rcases nameAt_cases ha with ⟨rfl, -⟩ | ⟨han, -⟩
  · exact .inl rfl
  · exact .inr han

theorem FilesInv.tabulates (h : FilesInv v) : Tabulates v.nameAt v.entryAt v.files.entry := by
  intro p e
  rw [Vfs.files, Option.bind_eq_some_iff]
  constructor
  · rintro ⟨a, ha, he⟩
    exact ⟨a, h.findNode_iff.mp ha, he⟩
  · rintro ⟨a, ha, he⟩
    exact ⟨a, h.findNode_iff.mpr ha, he⟩

theorem FilesInv.entry_eq (h : FilesInv v) (ha : v.nameAt a = some p) (hn : v.node a = some n) :
    v.files.entry p = some ⟨n.mode, v.bytes n⟩ :=
  (h.tabulates p _).mpr ⟨a, ha, entryAt_eq hn⟩

/-- There is no node under a path exactly if there is no entry. -/
theorem FilesInv.entry_none (h : FilesInv v) : v.files.entry p = none ↔ findNode v p = none := by
  constructor
  · intro hp
    by_contra hne
    obtain ⟨a, ha⟩ := Option.ne_none_iff_exists'.mp hne
    have hname := h.findNode_iff.mp ha
    obtain ⟨n, hn⟩ := h.live hname
    rw [h.entry_eq hname hn] at hp
    cases hp
  · intro hp
    rw [Vfs.files]
    dsimp only
    rw [hp, Option.bind_none]

theorem FilesInv.entry_some (h : FilesInv v) (hp : v.files.entry p = some e) :
    ∃ a n, v.nameAt a = some p ∧ v.node a = some n ∧ e = ⟨n.mode, v.bytes n⟩ := by
  obtain ⟨a, ha, he⟩ := (h.tabulates p e).mp hp
  obtain ⟨n, hn, rfl⟩ := Option.map_eq_some_iff.mp he
  exact ⟨a, n, ha, hn, rfl⟩

theorem files_ext {s s' : FileMap} (hentry : s'.entry = s.entry) (hname : s'.name = s.name) : s' = s := by
  obtain ⟨entry, name⟩ := s
  obtain ⟨entry', name'⟩ := s'
  obtain rfl : entry' = entry := hentry
  obtain rfl : name' = name := hname
  rfl

/-- Names and entries that stay. -/
theorem files_same (h : FilesInv v) (h' : FilesInv v') (hname : v'.nameAt = v.nameAt)
    (hentry : ∀ x p, v.nameAt x = some p → v'.entryAt x = v.entryAt x) : v'.files = v.files := by
  refine files_ext ?_ hname
  have htab := h'.tabulates
  rw [hname] at htab
  exact (h.tabulates.congr hentry).unique htab

end Table

/-! ## What the effects are in the map -/

section Effects

variable {v v' : Vfs} {a : Nat} {n n' : Node} {p : CStr} {e : FileEntry}

theorem FilesInv.step {call : VfsCall} (h : FilesInv v) (hg : PathsKeptApart v call) (hs : vfsCall v call = .ret v') :
    FilesInv v' :=
  ⟨(blob_step h.blobs h.table hs).inv, h.table.step hs, (uniquePaths_step h.table h.unique hs).mpr hg⟩

theorem entryAt_of (hn : v.node a = some n) (hn' : v'.node a = some n') (hmode : n'.mode = n.mode)
    (hbytes : v'.bytes n' = v.bytes n) : v'.entryAt a = v.entryAt a := by
  rw [entryAt_eq hn, entryAt_eq hn', hmode, hbytes]

/-- Nothing listed has changed but for the counts. -/
theorem files_of_relabel (h : FilesInv v) (h' : FilesInv v') (hnodes : v'.nodes = v.nodes)
    (hlive : ∀ x p n, v.nameAt x = some p → v.node x = some n →
      ∃ n', v'.node x = some n' ∧ n'.path = n.path ∧ n'.mode = n.mode ∧ v'.bytes n' = v.bytes n) : v'.files = v.files := by
  refine files_same h h' ?_ fun x p hx => ?_
  · funext x
    unfold Vfs.nameAt
    split
    · rfl
    · rename_i hroot
      rw [hnodes]
      split
      · rename_i hmem
        obtain ⟨n, hn, -⟩ := h.table.listed x hmem
        have hname : v.nameAt x = some n.path := by
          rw [h.table.nameAt hmem, Vfs.path, hn, Option.map_some]
        obtain ⟨n', hn', hpath, -⟩ := hlive x _ n hname hn
        rw [Vfs.path, Vfs.path, hn, hn', Option.map_some, Option.map_some, hpath]
      · rfl
  · obtain ⟨n, hn⟩ := h.live hx
    obtain ⟨n', hn', -, hmode, hbytes⟩ := hlive x p n hx hn
    exact entryAt_of hn hn' hmode hbytes

/-- The nodes and the data are as before. -/
theorem files_of_untouched (h : FilesInv v) (h' : FilesInv v') (hu : Untouched v v') : v'.files = v.files := by
  refine files_of_relabel h h' hu.nodes fun x p n _ hn => ⟨n, by rw [hu.node, hn], rfl, rfl, ?_⟩
  unfold Vfs.bytes Vfs.byte
  rw [hu.buf]

/-- A count of references. -/
theorem files_of_refs (h : FilesInv v) (h' : FilesInv (v.setNode a n')) (hn : v.node a = some n) (hpath : n'.path = n.path)
    (hmode : n'.mode = n.mode) (hblob : n'.toBlob = n.toBlob) : (v.setNode a n').files = v.files := by
  have hbytes : (v.setNode a n').bytes n' = v.bytes n := by
    unfold Vfs.bytes Vfs.byte
    rw [show n'.data = n.data from congrArg Blob.data hblob, show n'.size = n.size from congrArg Blob.size hblob]
    rfl
  refine files_of_relabel h h' rfl fun x p m _ hm => ?_
  by_cases hx : x = a
  · subst hx
    obtain rfl : n = m := Option.some.inj (hn.symm.trans hm)
    exact ⟨n', Function.update_self _ _ _, hpath, hmode, hbytes⟩
  · exact ⟨m, (Function.update_of_ne hx _ _).trans hm, rfl, rfl, rfl⟩

/-- One more node at the head of the list. -/
theorem files_creates (h : FilesInv v) (h' : FilesInv v') (hfree : v.node a = none) (hnodes : v'.nodes = a :: v.nodes)
    (hn : v'.node a = some n) (habs : findNode v n.path = none)
    (hlive : ∀ x m, x ≠ a → v.node x = some m →
      ∃ m', v'.node x = some m' ∧ m'.path = m.path ∧ m'.mode = m.mode ∧ v'.bytes m' = v.bytes m) :
    v.files.Creates n.path ⟨n.mode, v'.bytes n⟩ v'.files := by
  have hother : ∀ {x m}, v.node x = some m → x ≠ a := by
    rintro x m hm rfl
    rw [hfree] at hm
    cases hm
  have hroot : a ≠ rootAddr := by
    obtain ⟨r, hr, -⟩ := h.table.root
    exact (hother hr).symm
  have hfresh : v.nameAt a = none := by
    refine nameAt_none hroot fun hmem => ?_
    obtain ⟨m, hm, -⟩ := h.table.listed a hmem
    exact hother hm rfl
  have hname : v'.nameAt = Function.update v.nameAt a (some n.path) := by
    funext x
    by_cases hx : x = a
    · subst hx
      rw [Function.update_self, h'.table.nameAt (hnodes ▸ List.mem_cons_self), Vfs.path, hn, Option.map_some]
    · rw [Function.update_of_ne hx]
      unfold Vfs.nameAt
      split
      · rfl
      · have hmem : x ∈ v'.nodes ↔ x ∈ v.nodes := by
          rw [hnodes, List.mem_cons, or_iff_right hx]
        by_cases hin : x ∈ v.nodes
        · obtain ⟨m, hm, -⟩ := h.table.listed x hin
          obtain ⟨m', hm', hpath, -⟩ := hlive x m hx hm
          rw [if_pos hin, if_pos (hmem.mpr hin), Vfs.path, Vfs.path, hm, hm', Option.map_some, Option.map_some, hpath]
        · rw [if_neg hin, if_neg fun hin' => hin (hmem.mp hin')]
  have htab := h.tabulates.add (b := ⟨n.mode, v'.bytes n⟩) hfresh (h.entry_none.mpr habs) fun x hx => by
    obtain ⟨p, hp⟩ := Option.ne_none_iff_exists'.mp hx
    obtain ⟨m, hm⟩ := h.live hp
    rw [entryAt_eq hm]
    exact Option.some_ne_none _
  have htab' := h'.tabulates
  rw [hname] at htab'
  refine ⟨a, hfresh, files_ext ?_ hname⟩
  refine (htab.congr fun x p hx => ?_).unique htab'
  by_cases hxa : x = a
  · subst hxa
    rw [Function.update_self, entryAt_eq hn]
  · rw [Function.update_of_ne hxa] at hx ⊢
    obtain ⟨m, hm⟩ := h.live hx
    obtain ⟨m', hm', -, hmode, hbytes⟩ := hlive x m hxa hm
    exact entryAt_of hm hm' hmode hbytes

/-- One node less. -/
theorem files_removes (h : FilesInv v) (h' : FilesInv v') (ha : a ∈ v.nodes) (hp : v.path a = some p)
    (hun : Unlinked v v' a n) : v.files.Removes p v'.files := by
  have hname : v.nameAt a = some p := by rw [h.table.nameAt ha, hp]
  obtain ⟨-, hothers, -⟩ := h.blobs.unlinked h.table.nodup hun
  have hkeys : v'.nameAt = Function.update v.nameAt a none := by
    funext x
    by_cases hx : x = a
    · subst hx
      rw [Function.update_self]
      refine nameAt_none (h.table.ne_root ha) ?_
      rw [hun.nodes]
      exact h.table.nodup.not_mem_erase
    · rw [Function.update_of_ne hx]
      unfold Vfs.nameAt
      have hmem : x ∈ v'.nodes ↔ x ∈ v.nodes := by
        rw [hun.nodes]
        exact List.mem_erase_of_ne hx
      have hpath : v'.path x = v.path x := by rw [Vfs.path, Vfs.path, hun.node, Function.update_of_ne hx]
      simp only [hmem, hpath]
  have htab : Tabulates (Function.update v.nameAt a none) v'.entryAt (Function.update v.files.entry p none) := by
    refine (h.tabulates.remove h.apart hname).congr fun x q hx => ?_
    have hxa : x ≠ a := by
      rintro rfl
      rw [Function.update_self] at hx
      cases hx
    rw [Function.update_of_ne hxa] at hx
    obtain ⟨m, hm⟩ := h.live hx
    obtain ⟨m', hm', -, hbytes⟩ := hothers x m (fun he => hxa (Option.some.inj he).symm) hm
    have hsame : v'.node x = some m := by rw [hun.node, Function.update_of_ne hxa, hm]
    obtain rfl : m = m' := Option.some.inj (hsame.symm.trans hm')
    exact entryAt_of hm hm' rfl hbytes
  have htab' := h'.tabulates
  rw [hkeys] at htab'
  exact ⟨a, hname, files_ext (htab.unique htab') hkeys⟩

/-- Work on the bytes of one node. -/
theorem files_store (h : FilesInv v) (h' : FilesInv v') (hname : v.nameAt a = some p) (hn : v.node a = some n)
    (hw : Worked v v' a n') (hlabel : n'.toLabel = n.toLabel) :
    v'.files = v.files.store p ⟨n.mode, v'.bytes n'⟩ := by
  have hmode : n'.mode = n.mode := congrArg Label.mode hlabel
  have hkeys : v'.nameAt = v.nameAt := by
    funext x
    unfold Vfs.nameAt
    rw [hw.nodes]
    split
    · rfl
    split
    · rename_i hmem
      by_cases hx : x = a
      · subst hx
        have hpath : n'.path = n.path := congrArg Label.path hlabel
        rw [Vfs.path, Vfs.path, hn, hw.node, Option.map_some, Option.map_some, hpath]
      · obtain ⟨m, hm, -⟩ := h.table.listed x hmem
        rw [Vfs.path, Vfs.path, hm, (hw.isolated x m hx hm).1]
    · rfl
  have htab : Tabulates v.nameAt v'.entryAt (Function.update v.files.entry p (some ⟨n.mode, v'.bytes n'⟩)) := by
    refine (h.tabulates.store h.apart hname).congr fun x q hx => ?_
    by_cases hxa : x = a
    · subst hxa
      rw [Function.update_self, entryAt_eq hw.node, hmode]
    · rw [Function.update_of_ne hxa]
      obtain ⟨m, hm⟩ := h.live hx
      exact entryAt_of hm (hw.isolated x m hxa hm).1 rfl (hw.isolated.bytes hxa hm)
  have htab' := h'.tabulates
  rw [hkeys] at htab'
  exact files_ext (htab.unique htab') hkeys

/-- Storing what is there. -/
theorem store_self (s : FileMap) (hp : s.entry p = some e) : s.store p e = s :=
  files_ext (by show Function.update s.entry p (some e) = _; rw [← hp, Function.update_eq_self]) rfl

end Effects

/-! ## The calls that make something -/

section Creations

variable {v v' w : Vfs} {c : Caller} {path : CStr} {a : Nat} {n : Node} {r : Option Nat} {ret : Int}

theorem FileMap.real_iff {p : CStr} : FileMap.real c p = true ↔ synthLookup c.pids p = none := Option.isNone_iff_eq_none

/-- While there is memory, an allocation gives a block. -/
theorem kmalloc_answers (hmem : ∀ i, v.mem.outcome i ≠ .null) {size : Nat} (hsize : size ≠ 0)
    (h : v.kmalloc size = .ret (w, r)) : ∃ a, r = some a := by
  unfold Vfs.kmalloc at h
  rw [if_neg hsize] at h
  split at h
  · cases h
  split at h
  · cases h
    exact ⟨_, rfl⟩
  · rename_i hnull
    exact absurd hnull (hmem _)
  · cases h

/-- A node that the supply gives is new to the list. -/
theorem creates_of_newNode (h : FilesInv v) (h' : FilesInv v') (hm : NewNode v v' a n) (hreal : n.synth = false) :
    v.files.Creates n.path ⟨n.mode, v'.bytes n⟩ v'.files := by
  obtain ⟨-, hothers⟩ := h.blobs.made h.table hm
  refine files_creates h h' (h.table.fresh a hm.fresh.1) (by rw [hm.nodes, hreal]; rfl)
    (by rw [hm.node, Function.update_self]) (hm.absent hreal) fun x m hx hn => ?_
  have hsame : v'.node x = some m := by rw [hm.node, Function.update_of_ne hx, hn]
  obtain ⟨m', hm', -, hbytes⟩ := hothers x m (fun he => by cases he) hn
  obtain rfl : m = m' := Option.some.inj (hsame.symm.trans hm')
  exact ⟨m, hsame, rfl, rfl, hbytes⟩

/-- A call that makes no node of the list. -/
theorem files_of_openEffect (h : FilesInv v) (h' : FilesInv v') (ho : OpenEffect v v' none r) : v'.files = v.files := by
  cases ho with
  | failed hu => exact files_of_untouched h h' hu
  | found hn hlisted hv =>
      subst hv
      exact files_of_refs h h' hn rfl rfl rfl
  | @made a n hm hcreated =>
      have hsynth : n.synth = true := by
        cases hs : n.synth with
        | true => rfl
        | false => cases hcreated hs
      obtain ⟨-, hothers⟩ := h.blobs.made h.table hm
      refine files_of_relabel h h' (by rw [hm.nodes, hsynth]; rfl) fun x p m hx hmx => ?_
      have hxa : x ≠ a := by
        rintro rfl
        rw [h.table.fresh x hm.fresh.1] at hmx
        cases hmx
      have hsame : v'.node x = some m := by rw [hm.node, Function.update_of_ne hxa, hmx]
      obtain ⟨m', hm', -, hbytes⟩ := hothers x m (fun he => by cases he) hmx
      obtain rfl : m = m' := Option.some.inj (hsame.symm.trans hm')
      exact ⟨m, hsame, rfl, rfl, hbytes⟩

theorem vfsOpen_files {flags : Nat} (h : FilesInv v) (h' : FilesInv v') (hopen : vfsOpen v c path flags = .ret (v', r)) :
    v.files.Step v'.files (.openPath c path flags) := by
  show FileMap.Tries _ _ (_ ∧ _) _
  rw [FileMap.real_iff, h.entry_none]
  unfold vfsOpen at hopen
  dsimp only at hopen
  split at hopen
  · rename_i sid hsid
    refine .inr ⟨fun hall => Option.some_ne_none _ (hsid.symm.trans hall.1), ?_⟩
    split at hopen
    · cases hopen
      rfl
    · exact files_of_openEffect h h' (synthOpen_effect hopen)
  rename_i hreal
  split at hopen
  · rename_i b hb
    refine .inr ⟨fun hall => Option.some_ne_none _ (hb.symm.trans hall.2.1), ?_⟩
    obtain ⟨target, htarget, hopen⟩ := Exec.bind_eq_ret.mp hopen
    cases target with
    | none =>
        cases hopen
        rfl
    | some t =>
        obtain ⟨n, hn, hopen⟩ := Exec.bind_eq_ret.mp hopen
        cases hopen
        exact files_of_refs h h' (Vfs.load_ret hn) rfl rfl rfl
  rename_i habs
  split at hopen
  · rename_i hcreat
    unfold openCreate at hopen
    split at hopen
    · rename_i hlen
      obtain ⟨⟨w, q⟩, hw, hopen⟩ := Exec.bind_eq_ret.mp hopen
      obtain ⟨a, rfl⟩ := kmalloc_answers h.blobs.allocs (by decide) hw
      cases hopen
      exact .inl ⟨⟨hreal, habs, hcreat, hlen⟩, creates_of_newNode h h' (newNode_linkIn hw habs) rfl⟩
    · rename_i hlen
      cases hopen
      exact .inr ⟨fun hall => hlen hall.2.2.2, rfl⟩
  · rename_i hcreat
    cases hopen
    exact .inr ⟨fun hall => hcreat hall.2.2.1, rfl⟩

theorem vfsMkdir_files (h : FilesInv v) (h' : FilesInv v') (hmk : vfsMkdir v c path = .ret (v', ret)) :
    v.files.Step v'.files (.mkdir c path) := by
  show FileMap.Tries _ _ (_ ∧ _) _
  rw [FileMap.real_iff, h.entry_none]
  unfold vfsMkdir at hmk
  dsimp only at hmk
  split at hmk
  · rename_i hsynth
    cases hmk
    exact .inr ⟨fun hall => Option.isSome_iff_ne_none.mp hsynth hall.1, rfl⟩
  rename_i hreal
  split at hmk
  · rename_i hthere
    cases hmk
    exact .inr ⟨fun hall => Option.isSome_iff_ne_none.mp hthere hall.2.1, rfl⟩
  rename_i habs
  split at hmk
  · rename_i hok
    cases hmk
    exact .inr ⟨fun hall => absurd hall.2.2 (by simpa using hok), rfl⟩
  rename_i hok
  obtain ⟨⟨w, q⟩, hw, hmk⟩ := Exec.bind_eq_ret.mp hmk
  obtain ⟨a, rfl⟩ := kmalloc_answers h.blobs.allocs (by decide) hw
  cases hmk
  have habsent := Option.not_isSome_iff_eq_none.mp habs
  refine .inl ⟨⟨Option.not_isSome_iff_eq_none.mp hreal, habsent, by simpa using hok⟩, ?_⟩
  exact creates_of_newNode h h' (newNode_linkIn hw habsent) rfl

theorem kmallocBuf_some (hmem : ∀ i, v.mem.outcome i ≠ .null) {size : Nat} (hsize : size ≠ 0)
    (h : v.kmallocBuf size = .ret (w, r)) : ∃ b, r = some b := by
  obtain ⟨⟨u, q⟩, hu, h⟩ := Exec.bind_eq_ret.mp h
  obtain ⟨b, rfl⟩ := kmalloc_answers hmem hsize hu
  cases h
  exact ⟨b, rfl⟩

/-- The text of a link that has just been made. -/
theorem symlinkNode_creates {target : CStr} (h : FilesInv v) (h' : FilesInv v') (habs : findNode v path = none)
    (hsym : symlinkNode v path target = .ret (v', ret)) : v.files.Creates path ⟨sIflnk, target⟩ v'.files := by
  obtain ⟨⟨w, q⟩, hw, hsym⟩ := Exec.bind_eq_ret.mp hsym
  obtain ⟨a, rfl⟩ := kmalloc_answers h.blobs.allocs (by decide) hw
  obtain ⟨⟨u, data⟩, hu, hsym⟩ := Exec.bind_eq_ret.mp hsym
  have hmem : ∀ i, w.mem.outcome i ≠ .null := by
    rw [(Untouched.kmalloc hw).mem]
    exact h.blobs.allocs
  obtain ⟨b, rfl⟩ := kmallocBuf_some hmem (Nat.succ_ne_zero _) hu
  obtain ⟨x, hx, hsym⟩ := Exec.bind_eq_ret.mp hsym
  cases hsym
  have hnode : NewNode v (linkIn x a { freshNode path sIflnk with
      data := some b, size := target.length, capacity := target.length + 1 }) a { freshNode path sIflnk with
      data := some b, size := target.length, capacity := target.length + 1, ino := x.nextIno } :=
    newNode_of_stored hw hu hx (fun hd => by cases hd) ⟨rfl, rfl, Nat.le_succ _, rfl, rfl⟩ (fun _ => habs) rfl
  have hcreates := creates_of_newNode h h' hnode rfl
  rcases Vfs.storeBytes_ret hx with ⟨hnil, -⟩ | ⟨b', m, hb, -, -, rfl⟩
  · exact absurd hnil (List.append_ne_nil_of_right_ne_nil _ (List.cons_ne_nil _ _))
  cases hb
  have hbytes : Vfs.bytes (linkIn (u.setBuf b (m.write 0 (target ++ [0]))) a { freshNode path sIflnk with
      data := some b, size := target.length, capacity := target.length + 1 }) { freshNode path sIflnk with
      data := some b, size := target.length, capacity := target.length + 1, ino := u.nextIno } = target := by
    refine Vfs.bytes_eq rfl fun i hi => ?_
    have hi' : i < target.length := hi
    rw [byte_eq rfl (m := m.write 0 (target ++ [0])) (Function.update_self _ _ _)]
    simp [Buf.write, List.getElem?_append_left hi', hi']
  have hmode : (⟨sIflnk, target⟩ : FileEntry) = ⟨sIflnk, _⟩ := congrArg (FileEntry.mk sIflnk) hbytes.symm
  rw [hmode]
  exact hcreates

theorem vfsSymlink_files {target : CStr} (h : FilesInv v) (h' : FilesInv v')
    (hsym : vfsSymlink v c target path = .ret (v', ret)) : v.files.Step v'.files (.symlink c target path) := by
  show FileMap.Tries _ _ (_ ∧ _) _
  rw [FileMap.real_iff, h.entry_none]
  unfold vfsSymlink at hsym
  dsimp only at hsym
  split at hsym
  · rename_i hsynth
    cases hsym
    exact .inr ⟨fun hall => Option.isSome_iff_ne_none.mp hsynth hall.1, rfl⟩
  rename_i hreal
  split at hsym
  · rename_i hthere
    cases hsym
    exact .inr ⟨fun hall => Option.isSome_iff_ne_none.mp hthere hall.2.1, rfl⟩
  rename_i habs
  split at hsym
  · rename_i hok
    cases hsym
    exact .inr ⟨fun hall => absurd hall.2.2.1 (by simpa using hok), rfl⟩
  rename_i hok
  split at hsym
  · rename_i hnil
    cases hsym
    exact .inr ⟨fun hall => hall.2.2.2 hnil, rfl⟩
  rename_i htext
  have habsent := Option.not_isSome_iff_eq_none.mp habs
  exact .inl ⟨⟨Option.not_isSome_iff_eq_none.mp hreal, habsent, by simpa using hok, htext⟩,
    symlinkNode_creates h h' habsent hsym⟩

/-! ## A hard link -/

theorem shareCell_some {target : Nat} (hmem : ∀ i, v.mem.outcome i ≠ .null) (h : shareCell v target = .ret (w, r)) :
    ∃ k, r = some k := by
  obtain ⟨t, -, h⟩ := Exec.bind_eq_ret.mp h
  split at h
  · cases h
    exact ⟨_, rfl⟩
  · obtain ⟨⟨u, q⟩, hu, h⟩ := Exec.bind_eq_ret.mp h
    obtain ⟨k, rfl⟩ := kmalloc_answers hmem (by decide) hu
    cases h
    exact ⟨k, rfl⟩

/-- Sharing does not fail for want of memory. -/
theorem dataShare_zero {target : Nat} {t : Node} (h : dataShare v a target = .ret (w, ret))
    (hmem : ∀ i, v.mem.outcome i ≠ .null) (ht : v.node target = some t) (hdir : t.dirBit = false) : ret = 0 := by
  obtain ⟨t', ht', h⟩ := Exec.bind_eq_ret.mp h
  obtain rfl : t = t' := Option.some.inj (ht.symm.trans (Vfs.load_ret ht'))
  rw [hdir, if_neg Bool.false_ne_true] at h
  obtain ⟨⟨u, q⟩, hu, h⟩ := Exec.bind_eq_ret.mp h
  obtain ⟨k, rfl⟩ := shareCell_some hmem hu
  obtain ⟨refs, -, h⟩ := Exec.bind_eq_ret.mp h
  obtain ⟨t₁, -, h⟩ := Exec.bind_eq_ret.mp h
  obtain ⟨n₁, -, h⟩ := Exec.bind_eq_ret.mp h
  cases h
  rfl

/-- A link makes a node. -/
theorem linkNode_adds {target : Nat} {t : Node} (h : FilesInv v) (ht : v.node target = some t) (hdir : t.dirBit = false)
    (hlink : linkNode v path target = .ret (v', ret)) : v'.nodes ≠ v.nodes := by
  obtain ⟨t', ht', hlink⟩ := Exec.bind_eq_ret.mp hlink
  obtain rfl : t = t' := Option.some.inj (ht.symm.trans (Vfs.load_ret ht'))
  obtain ⟨⟨w, q⟩, hw, hlink⟩ := Exec.bind_eq_ret.mp hlink
  have hvw := Untouched.kmalloc hw
  obtain ⟨a, rfl⟩ := kmalloc_answers h.blobs.allocs (by decide) hw
  obtain ⟨rfl, -⟩ := (Vfs.kmalloc_ret hw).2 a rfl
  have hne : target ≠ v.nextObj := by
    rintro rfl
    rw [h.table.fresh _ (Nat.le_refl _)] at ht
    cases ht
  obtain ⟨⟨x, r⟩, hx, hlink⟩ := Exec.bind_eq_ret.mp hlink
  have htarget : (Function.update w.node v.nextObj (some { freshNode path t.mode with ino := w.nextIno })) target = some t :=
    (Function.update_of_ne hne _ _).trans (by rw [hvw.node, ht])
  have hmem : ∀ i, w.mem.outcome i ≠ .null := by
    rw [hvw.mem]
    exact h.blobs.allocs
  have hzero : r = 0 := dataShare_zero hx hmem htarget hdir
  rcases dataShare_ret hne (Function.update_self _ _ _) htarget hdir hx with ⟨hbad, -⟩ | ⟨k, -, -, -, -, hnodes, -⟩
  · exact absurd hzero hbad
  · subst hzero
    cases hlink
    intro he
    have hsame : v.nextObj :: x.nodes = v.nodes := he
    rw [show x.nodes = v.nodes from hnodes.trans hvw.nodes] at hsame
    exact absurd (congrArg List.length hsame) (Nat.succ_ne_self _)

theorem creates_of_newLink {target k : Nat} {t : Node} (h : FilesInv v) (h' : FilesInv v')
    (hl : NewLink v v' a target k n t) (hmode : n.mode = t.mode) :
    v.files.Creates n.path ⟨t.mode, v.bytes t⟩ v'.files := by
  have hfree : v.node a = none := h.table.fresh a hl.fresh.1
  have hta : target ≠ a := by
    rintro rfl
    rw [hl.live] at hfree
    cases hfree
  have hbytes : ∀ {m m' : Node}, m'.data = m.data → m'.size = m.size → v'.bytes m' = v.bytes m := by
    intro m m' hdata hsize
    unfold Vfs.bytes Vfs.byte
    rw [hdata, hsize, hl.buf]
  have hnew : v'.node a = some n := by rw [hl.node, Function.update_self]
  have hcreates := files_creates h h' hfree hl.nodes hnew hl.absent fun x m hx hm => by
    by_cases hxt : x = target
    · subst hxt
      obtain rfl : t = m := Option.some.inj (hl.live.symm.trans hm)
      refine ⟨{ t with dataRefs := some k }, ?_, rfl, rfl, hbytes rfl rfl⟩
      rw [hl.node, Function.update_of_ne hx, Function.update_self]
    · refine ⟨m, ?_, rfl, rfl, hbytes rfl rfl⟩
      rw [hl.node, Function.update_of_ne hx, Function.update_of_ne hxt, hm]
  have hblob := hl.shares
  have hdata : n.data = t.data := (congrArg Blob.data hblob).trans rfl
  have hsize : n.size = t.size := (congrArg Blob.size hblob).trans rfl
  have hshare : v'.bytes n = v.bytes t := hbytes hdata hsize
  rw [hmode, hshare] at hcreates
  exact hcreates

theorem vfsLink_files {targetPath : CStr} (h : FilesInv v) (h' : FilesInv v')
    (hlink : vfsLink v c path targetPath = .ret (v', ret)) : v.files.Step v'.files (.link c path targetPath) := by
  unfold FileMap.Step
  dsimp only
  unfold vfsLink at hlink
  dsimp only at hlink
  split
  · rename_i hentry
    rw [h.entry_none.mp hentry] at hlink
    dsimp only at hlink
    rw [ite_self, ite_self] at hlink
    cases hlink
    rfl
  rename_i e hentry
  obtain ⟨target, t, hname, ht, rfl⟩ := h.entry_some hentry
  rw [FileMap.real_iff, FileMap.real_iff, h.entry_none]
  rw [h.findNode_iff.mpr hname] at hlink
  split at hlink
  · rename_i hsynth
    cases hlink
    exact .inr ⟨fun hall => Option.isSome_iff_ne_none.mp hsynth hall.1, rfl⟩
  rename_i hreal
  split at hlink
  · rename_i hsynth
    cases hlink
    exact .inr ⟨fun hall => Option.isSome_iff_ne_none.mp hsynth hall.2.1, rfl⟩
  rename_i hreal'
  obtain ⟨t', ht', hlink⟩ := Exec.bind_eq_ret.mp hlink
  obtain rfl : t = t' := Option.some.inj (ht.symm.trans (Vfs.load_ret ht'))
  split at hlink
  · rename_i hdir
    cases hlink
    exact .inr ⟨fun hall => Bool.false_ne_true (hall.2.2.1.symm.trans hdir), rfl⟩
  rename_i hdir
  split at hlink
  · rename_i hthere
    cases hlink
    exact .inr ⟨fun hall => Option.isSome_iff_ne_none.mp hthere hall.2.2.2.1, rfl⟩
  rename_i habs
  split at hlink
  · rename_i hok
    cases hlink
    exact .inr ⟨fun hall => absurd hall.2.2.2.2 (by simpa using hok), rfl⟩
  rename_i hok
  have hfile : t.dirBit = false := Bool.eq_false_iff.mpr hdir
  have habsent := Option.not_isSome_iff_eq_none.mp habs
  refine .inl ⟨⟨Option.not_isSome_iff_eq_none.mp hreal, Option.not_isSome_iff_eq_none.mp hreal', hfile, habsent,
    by simpa using hok⟩, ?_⟩
  have hlisted : target = rootAddr ∨ target ∈ v.nodes := (nameAt_cases hname).imp And.left And.left
  rcases linkNode_effect h.table.fresh ht hlisted hfile habsent hlink with hu | ⟨a, k, n, hl, hpath, hmode⟩
  · exact absurd hu.nodes (linkNode_adds h ht hfile hlink)
  · rw [← hpath]
    exact creates_of_newLink h h' hl hmode

end Creations

/-! ## The calls that take away or carry along -/

section Removals

variable {v v' : Vfs} {c : Caller} {path newpath p : CStr} {a : Nat} {n : Node} {ret : Int}

theorem resolve_ne_nil (c : Caller) (path : CStr) : c.resolve path ≠ [] := vfsResolvePath_ne_nil _ _

theorem resolve_length (c : Caller) (path : CStr) : (c.resolve path).length ≤ 255 := vfsResolvePath_length _ _

theorem unlinkTarget_iff : unlinkTarget v c path = some a ↔
    synthLookup c.pids (c.resolve path) = none ∧ c.resolve path ≠ [slash] ∧ findNode v (c.resolve path) = some a := by
  unfold unlinkTarget
  by_cases hbad : (synthLookup c.pids (c.resolve path)).isSome ∨ c.resolve path = [slash]
  · rw [if_pos hbad]
    refine ⟨fun he => absurd he.symm (Option.some_ne_none a), fun hall => ?_⟩
    rcases hbad with hsynth | hroot
    · exact absurd hall.1 (Option.isSome_iff_ne_none.mp hsynth)
    · exact absurd hroot hall.2.1
  · rw [if_neg hbad]
    obtain ⟨hsynth, hroot⟩ := not_or.mp hbad
    rw [findNode, if_neg hroot]
    exact ⟨fun he => ⟨Option.not_isSome_iff_eq_none.mp hsynth, hroot, he⟩, fun hall => hall.2.2⟩

theorem removes_of_unlinkNode (h : FilesInv v) (h' : FilesInv v') (hroot : p ≠ [slash]) (ha : findNode v p = some a)
    (hun : unlinkNode v a = .ret v') : v.files.Removes p v'.files := by
  obtain ⟨n, hun⟩ := unlinkNode_ret hun
  obtain ⟨han, hap⟩ := findNode_path ha hroot
  exact files_removes h h' han hap hun

theorem vfsUnlink_files (h : FilesInv v) (h' : FilesInv v') (hun : vfsUnlink v c path = .ret (v', ret)) :
    v.files.Step v'.files (.unlink c path) := by
  show FileMap.Tries _ _ (_ ∧ _) _
  rw [FileMap.real_iff, Ne, Ne, h.entry_none]
  rcases vfsUnlink_effect hun with ⟨hnone, rfl⟩ | ⟨a, ha, hnode⟩
  · refine .inr ⟨fun hall => ?_, rfl⟩
    obtain ⟨hreal, hroot, hthere⟩ := hall
    obtain ⟨a, ha⟩ := Option.ne_none_iff_exists'.mp hthere
    rw [unlinkTarget_iff.mpr ⟨hreal, hroot, ha⟩] at hnone
    cases hnone
  · obtain ⟨hreal, hroot, hfind⟩ := unlinkTarget_iff.mp ha
    refine .inl ⟨⟨hreal, hroot, fun hno => ?_⟩, removes_of_unlinkNode h h' hroot hfind hnode⟩
    rw [hno] at hfind
    cases hfind

/-- What the loop over the list sees. -/
theorem FilesInv.hasBelow_iff (h : FilesInv v) (hp : p ≠ []) : v.files.HasBelow p ↔ v.hasChild p = true := by
  unfold Vfs.hasChild
  rw [List.any_eq_true]
  constructor
  · rintro ⟨q, hq, hbelow⟩
    obtain ⟨e, he⟩ := Option.ne_none_iff_exists'.mp hq
    obtain ⟨x, n, hx, hn, -⟩ := h.entry_some he
    rcases nameAt_cases hx with ⟨-, rfl⟩ | ⟨hmem, hpath⟩
    · -- the root is below nothing
      have hlt : p.length < 1 := (List.getElem?_eq_some_iff.mp (isBelow_iff.mp hbelow).2).1
      exact absurd (List.length_eq_zero_iff.mp (Nat.lt_one_iff.mp hlt)) hp
    · rw [Vfs.path, hn, Option.map_some, Option.some.injEq] at hpath
      refine ⟨x, hmem, ?_⟩
      rw [hn, Option.any_some, hpath]
      exact hbelow
  · rintro ⟨x, hmem, hx⟩
    obtain ⟨n, hn, -⟩ := h.table.listed x hmem
    rw [hn, Option.any_some] at hx
    have hname : v.nameAt x = some n.path := by rw [h.table.nameAt hmem, Vfs.path, hn, Option.map_some]
    exact ⟨n.path, by rw [h.entry_eq hname hn]; exact Option.some_ne_none _, hx⟩

theorem vfsRmdir_files (h : FilesInv v) (h' : FilesInv v') (hrm : vfsRmdir v c path = .ret (v', ret)) :
    v.files.Step v'.files (.rmdir c path) := by
  show FileMap.Tries _ _ (_ ∧ _) _
  rw [FileMap.real_iff, h.hasBelow_iff (resolve_ne_nil c path)]
  unfold vfsRmdir at hrm
  dsimp only at hrm
  split at hrm
  · rename_i hroot
    cases hrm
    exact .inr ⟨fun hall => hall.2.1 hroot, rfl⟩
  rename_i hroot
  split at hrm
  · rename_i hnone
    cases hrm
    refine .inr ⟨fun hall => ?_, rfl⟩
    obtain ⟨e, he, -⟩ := hall.2.2.1
    rw [h.entry_none.mpr hnone] at he
    cases he
  rename_i a ha
  obtain ⟨n, hn, hrm⟩ := Exec.bind_eq_ret.mp hrm
  have hentry := h.entry_eq (h.findNode_iff.mp ha) (Vfs.load_ret hn)
  split at hrm
  · rename_i hkind
    cases hrm
    refine .inr ⟨fun hall => ?_, rfl⟩
    obtain ⟨e, he, hdir, hlink⟩ := hall.2.2.1
    rw [hentry, Option.some.injEq] at he
    subst he
    rcases hkind with hkind | hkind
    · exact absurd (show n.dirBit = true from hdir) (by simpa using hkind)
    · exact hlink hkind
  rename_i hkind
  obtain ⟨hdir, hlink⟩ := not_or.mp hkind
  split at hrm
  · rename_i hchild
    cases hrm
    exact .inr ⟨fun hall => hall.2.2.2 hchild, rfl⟩
  rename_i hchild
  rcases vfsUnlink_effect hrm with ⟨hnone, rfl⟩ | ⟨b, hb, hnode⟩
  · refine .inr ⟨fun hall => ?_, rfl⟩
    rw [unlinkTarget_iff.mpr ⟨hall.1, hroot, ha⟩] at hnone
    cases hnone
  · obtain ⟨hreal, -, hfind⟩ := unlinkTarget_iff.mp hb
    have hisdir : n.dirBit = true := by simpa using hdir
    refine .inl ⟨⟨hreal, hroot, ⟨_, hentry, hisdir, hlink⟩, hchild⟩, ?_⟩
    exact removes_of_unlinkNode h h' hroot hfind hnode

/-- Where the nodes of the list are found after a rename. -/
theorem nameAt_renamed (h : FilesInv v) (h' : FilesInv v') {old new : CStr} (hold : v.nameAt a = some old)
    (holdroot : old ≠ [slash]) (hnil : old ≠ []) (hnew : new.length ≤ 255) (hn : v.node a = some n)
    (hren : renameNode v a old new = .ret (v', ret)) :
    v'.nameAt = fun x => (v.nameAt x).map (FileMap.moved n.dirBit old new) := by
  obtain ⟨m, hm, hnodes, hpaths⟩ := path_renamed hren
  obtain rfl : n = m := Option.some.inj (hn.symm.trans hm)
  funext x
  by_cases hroot : x = rootAddr
  · subst hroot
    have hbelow : ¬isBelow old [slash] = true := by
      intro hb
      have hlt : old.length < 1 := (List.getElem?_eq_some_iff.mp (isBelow_iff.mp hb).2).1
      exact hnil (List.length_eq_zero_iff.mp (Nat.lt_one_iff.mp hlt))
    rw [nameAt_root, nameAt_root, Option.map_some, FileMap.moved, if_neg (Ne.symm holdroot), if_neg fun hb => hbelow hb.2]
  by_cases hmem : x ∈ v.nodes
  · rw [h'.table.nameAt (hnodes ▸ hmem), hpaths x, h.table.nameAt hmem]
    obtain ⟨m, hxm, -⟩ := h.table.listed x hmem
    rw [Vfs.path, hxm, Option.map_some, Option.map_some, Option.map_some, Option.some.injEq]
    have hsame : x = a ↔ m.path = old := by
      have hxname : v.nameAt x = some m.path := by rw [h.table.nameAt hmem, Vfs.path, hxm, Option.map_some]
      constructor
      · rintro rfl
        exact Option.some.inj (hxname.symm.trans hold)
      · intro he
        exact h.apart x a old (he ▸ hxname) hold
    unfold movedPath FileMap.moved
    by_cases hxa : x = a
    · rw [if_pos hxa, if_pos (hsame.mp hxa)]
      exact List.take_of_length_le hnew
    · rw [if_neg hxa, if_neg fun he => hxa (hsame.mpr he), rebase_eq hnew]
      simp only [hmem, true_and]
  · rw [nameAt_none hroot hmem, nameAt_none hroot (hnodes ▸ hmem)]
    rfl

theorem moves_of_renameNode (h : FilesInv v) (h' : FilesInv v') {old new : CStr} (hold : v.nameAt a = some old)
    (holdroot : old ≠ [slash]) (hnil : old ≠ []) (hnew : new.length ≤ 255) (hn : v.node a = some n)
    (hren : renameNode v a old new = .ret (v', ret)) : v.files.Moves (FileMap.moved n.dirBit old new) v'.files := by
  have hname := nameAt_renamed h h' hold holdroot hnil hnew hn hren
  obtain ⟨m, -, rfl⟩ := renameNode_ret hren
  have hentry : ∀ x, Vfs.entryAt { v with
      node := fun x => (v.node x).map fun k => { k with path := movedPath v a m.dirBit old new x k.path } } x =
      v.entryAt x := by
    intro x
    unfold Vfs.entryAt
    dsimp only
    rw [Option.map_map]
    rfl
  have htab := h'.tabulates
  rw [hname] at htab
  exact ⟨h.tabulates.rekey (htab.congr fun x _ _ => (hentry x).symm), hname⟩

theorem vfsRename_files (h : FilesInv v) (h' : FilesInv v') (hren : vfsRename v c path newpath = .ret (v', ret)) :
    v.files.Step v'.files (.rename c path newpath) := by
  unfold FileMap.Step
  dsimp only
  have heffect := vfsRename_effect hren
  split
  · rename_i hentry
    rcases heffect with ⟨-, rfl⟩ | ⟨a, ha, -⟩
    · rfl
    · obtain ⟨-, -, hmem, hpath⟩ := renameTarget_some ha
      exact absurd (List.mem_map.mpr ⟨a, hmem, hpath⟩) (findNode_eq_none (h.entry_none.mp hentry)).2
  rename_i e hentry
  obtain ⟨a, n, hname, hn, rfl⟩ := h.entry_some hentry
  have htarget : renameTarget v c path newpath = some a ↔ synthLookup c.pids (c.resolve path) = none ∧
      synthLookup c.pids (c.resolve newpath) = none ∧ c.resolve path ≠ [slash] ∧ c.resolve newpath ≠ [slash] ∧
      c.resolve path ≠ c.resolve newpath ∧ findNode v (c.resolve newpath) = none := by
    unfold renameTarget
    dsimp only
    rw [h.findNode_iff.mpr hname]
    simp only [ite_eq_right_iff, reduceCtorEq, imp_false, not_or, Option.not_isSome_iff_eq_none]
  rw [FileMap.real_iff, FileMap.real_iff, h.entry_none]
  rcases heffect with ⟨hnone, rfl⟩ | ⟨b, hb, hnode⟩
  · refine .inr ⟨fun hall => ?_, rfl⟩
    rw [htarget.mpr hall] at hnone
    cases hnone
  · obtain ⟨-, -, hmem, hpath⟩ := renameTarget_some hb
    have hba : b = a := h.apart b a _ (by rw [h.table.nameAt hmem, hpath]) hname
    subst hba
    have hall := htarget.mp hb
    exact .inl ⟨hall, moves_of_renameNode h h' hname hall.2.2.1 (resolve_ne_nil c path) (resolve_length c newpath) hn hnode⟩

end Removals

/-! ## The calls on handles -/

section Handles

variable {v v' : Vfs} {a : Nat} {n : Node} {p : CStr} {ret : Int}

/-- What an allocated node without a name is. -/
theorem FilesInv.synth_of_nameless (h : FilesInv v) (hname : v.nameAt a = none) (hn : v.node a = some n) :
    n.synth = true := by
  have hroot : a ≠ rootAddr := by
    rintro rfl
    rw [nameAt_root] at hname
    cases hname
  have hmem : a ∉ v.nodes := by
    intro hmem
    rw [h.table.nameAt hmem, Vfs.path, hn] at hname
    cases hname
  exact (h.table.unlisted a n hn hmem).resolve_left hroot

/-- What a node with a name is, if it is no directory. -/
theorem FilesInv.file_of_name (h : FilesInv v) (hname : v.nameAt a = some p) (hn : v.node a = some n)
    (hdir : ¬n.dirBit = true) : n.path = p ∧ n.synth = false := by
  rcases nameAt_cases hname with ⟨rfl, -⟩ | ⟨hmem, hpath⟩
  · obtain ⟨r, hr, hrdir⟩ := h.table.root
    obtain rfl : n = r := Option.some.inj (hn.symm.trans hr)
    exact absurd hrdir hdir
  · rw [Vfs.path, hn, Option.map_some, Option.some.injEq] at hpath
    obtain ⟨m, hm, hreal⟩ := h.table.listed a hmem
    obtain rfl : n = m := Option.some.inj (hn.symm.trans hm)
    exact ⟨hpath, hreal⟩

theorem FilesInv.held_none (hname : v.nameAt a = none) : v.files.held a = none := by
  rw [FileMap.held, show v.files.name a = none from hname, Option.bind_none]

theorem FilesInv.held_eq (h : FilesInv v) (hname : v.nameAt a = some p) (hn : v.node a = some n) :
    v.files.held a = some (p, ⟨n.mode, v.bytes n⟩) := by
  rw [FileMap.held, show v.files.name a = some p from hname, Option.bind_some, h.entry_eq hname hn, Option.map_some]

/-- Bytes that are written. -/
theorem overwrites_of_written {n' : Node} {offset : Nat} {buffer : List UInt8} (h : Written v v' n n' offset buffer) :
    FileMap.Overwrites (v.bytes n) offset buffer (v'.bytes n') where
  length := by rw [Vfs.length_bytes, Vfs.length_bytes, h.size]
  written i hlo hhi hi := by
    rw [Vfs.length_bytes] at hi
    have hin : i - offset < buffer.length := by omega
    rw [Vfs.getElem?_bytes hi, h.bytes i (.inr ⟨hlo, hhi⟩), if_pos ⟨hlo, hhi⟩, List.getElem?_eq_getElem hin,
      Option.getD_some]
  kept i hi hout := by
    rw [Vfs.length_bytes] at hi
    have hsize : i < n'.size := by
      rw [h.size]
      omega
    rw [Vfs.getElem?_bytes hsize, h.bytes i (.inl hi), if_neg (by omega), Vfs.getElem?_bytes hi]

/-- The same bytes in other blocks. -/
theorem bytes_of_sameFile {n' : Node} (h : SameFile v v' n n') : v'.bytes n' = v.bytes n :=
  Vfs.bytes_eq (by rw [Vfs.length_bytes, h.size]) fun i hi => by
    rw [Vfs.getElem?_bytes (h.size ▸ hi), h.bytes i (h.size ▸ hi)]

theorem vfsWrite_files {offset : Nat} {buffer : List UInt8} (h : FilesInv v) (h' : FilesInv v')
    (hw : vfsWrite v a offset buffer = .ret (v', ret)) : v.files.Step v'.files (.write a offset buffer) := by
  obtain ⟨n, hn, hrun⟩ := Exec.bind_eq_ret.mp hw
  replace hn := Vfs.load_ret hn
  unfold FileMap.Step
  dsimp only
  cases hname : v.nameAt a with
  | none =>
      rw [FilesInv.held_none hname]
      dsimp only
      have hsynth := h.synth_of_nameless hname hn
      rw [if_pos hsynth, ite_self, ite_self] at hrun
      cases hrun
      rfl
  | some p =>
      rw [h.held_eq hname hn]
      dsimp only
      split at hrun
      · rename_i hdir
        cases hrun
        exact .inr ⟨fun hall => hall.1 hdir, rfl⟩
      rename_i hdir
      obtain ⟨rfl, hreal⟩ := h.file_of_name hname hn hdir
      split at hrun
      · rename_i hlink
        cases hrun
        exact .inr ⟨fun hall => hall.2.1 hlink, rfl⟩
      rename_i hlink
      rw [hreal, if_neg Bool.false_ne_true] at hrun
      split at hrun
      · rename_i hdev
        cases hrun
        exact .inr ⟨fun hall => hall.2.2.1 (.inl hdev), rfl⟩
      rename_i hnull
      split at hrun
      · rename_i hdev
        cases hrun
        exact .inr ⟨fun hall => hall.2.2.1 (.inr (.inl hdev)), rfl⟩
      rename_i hzero
      split at hrun
      · rename_i hdev
        refine .inr ⟨fun hall => hall.2.2.1 (.inr (.inr hdev)), ?_⟩
        split at hrun
        · cases hrun
          rfl
        · split at hrun
          · cases hrun
            rfl
          · cases hrun
            rfl
      rename_i hfb
      have hfile : ¬devicePath n.path := fun hdev => hdev.elim hnull fun hdev => hdev.elim hzero hfb
      obtain ⟨n', hwork, ⟨hwrap, -, hsame⟩ | ⟨hfits, -, hwritten⟩⟩ := writeData_spec h.blobs h.table.nodup hn hrun
      · refine .inr ⟨fun hall => absurd hall.2.2.2 (Nat.not_le.mpr hwrap), ?_⟩
        rw [files_store h h' hname hn hwork hsame.label, bytes_of_sameFile hsame]
        exact store_self _ (h.entry_eq hname hn)
      · exact .inl ⟨⟨hdir, hlink, hfile, hfits⟩, _, overwrites_of_written hwritten,
          files_store h h' hname hn hwork hwritten.label⟩

theorem vfsTruncate_files {length : Nat} (h : FilesInv v) (h' : FilesInv v')
    (hw : vfsTruncate v a length = .ret (v', ret)) : v.files.Step v'.files (.truncate a length) := by
  obtain ⟨n, hn, -⟩ := Exec.bind_eq_ret.mp hw
  replace hn := Vfs.load_ret hn
  unfold FileMap.Step
  dsimp only
  cases hname : v.nameAt a with
  | none =>
      rw [FilesInv.held_none hname]
      dsimp only
      have hsynth := h.synth_of_nameless hname hn
      rw [vfsTruncate, Vfs.load, hn, Exec.ret_bind, if_pos hsynth, ite_self] at hw
      cases hw
      rfl
  | some p =>
      rw [h.held_eq hname hn]
      dsimp only
      by_cases hkind : n.dirBit = true ∨ isSymlinkNode n = true
      · rw [vfsTruncate, Vfs.load, hn, Exec.ret_bind, if_pos hkind] at hw
        cases hw
        exact .inr ⟨fun hall => hkind.elim hall.1 hall.2, rfl⟩
      obtain ⟨hdir, hlink⟩ := not_or.mp hkind
      rcases vfsTruncate_spec h.blobs h.table.nodup hn hw with ⟨-, -, hfail⟩ | ⟨-, n', hwork, htr⟩
      · rcases hfail with hbad | hbad | hbad
        · exact absurd hbad hdir
        · exact absurd hbad hlink
        · rw [(h.file_of_name hname hn hdir).2] at hbad
          cases hbad
      · refine .inl ⟨⟨hdir, hlink⟩, ?_⟩
        rw [files_store h h' hname hn hwork htr.label, bytes_of_truncated htr]

theorem vfsClose_files (h : FilesInv v) (h' : FilesInv v') (hc : vfsClose v a = .ret (v', ret)) : v'.files = v.files := by
  obtain ⟨n, hn, ⟨k, rfl⟩ | ⟨hsynth, hroot, -, hnodes, -⟩⟩ := vfsClose_ret hc
  · exact files_of_refs h h' hn rfl rfl rfl
  obtain ⟨m, hm, ⟨k, rfl⟩ | ⟨-, hun⟩⟩ := h.blobs.closed h.table hc
  · exact files_of_refs h h' hm rfl rfl rfl
  -- a synthetic node that nobody holds: it has no name
  obtain ⟨-, hothers, -⟩ := h.blobs.unlinked h.table.nodup hun
  refine files_of_relabel h h' hnodes fun x p k hx hk => ?_
  have hxa : x ≠ a := by
    rintro rfl
    rcases nameAt_cases hx with ⟨rfl, -⟩ | ⟨hmem, -⟩
    · exact hroot rfl
    · obtain ⟨l, hl, hreal⟩ := h.table.listed x hmem
      obtain rfl : n = l := Option.some.inj (hn.symm.trans hl)
      rw [hreal] at hsynth
      cases hsynth
  have hsame : v'.node x = some k := by rw [hun.node, Function.update_of_ne hxa, hk]
  obtain ⟨k', hk', -, hbytes⟩ := hothers x k (fun he => hxa (Option.some.inj he).symm) hk
  obtain rfl : k = k' := Option.some.inj (hsame.symm.trans hk')
  exact ⟨k, hsame, rfl, rfl, hbytes⟩

end Handles

/-! ## Runs -/

section Runs

variable {v v' : Vfs} {c : Caller} {call : VfsCall}

theorem FilesInv.of_boot (h : blobSystem.init v) : FilesInv v := by
  refine ⟨.of_boot h, .of_boot h.1, ?_⟩
  obtain ⟨⟨mem, fb, rfl⟩, -⟩ := h
  exact ⟨.nil, by simp [emptyVfs]⟩

theorem FilesInv.of_reach (h : blobSystem.ReachVia PathsKeptApart v) : FilesInv v :=
  System.ReachVia.invariant (fun _ hv => .of_boot hv) (fun _ _ _ hi hg hs => hi.step hg hs) h

/-- One call, in the list of nodes and in the map. -/
theorem files_step (h : FilesInv v) (h' : FilesInv v') (hs : vfsCall v call = .ret v') : v.files.Step v'.files call := by
  cases call with
  | openPath c path flags =>
      obtain ⟨⟨w, r⟩, hw, hs⟩ := Exec.bind_eq_ret.mp hs
      cases hs
      exact vfsOpen_files h h' hw
  | close a =>
      obtain ⟨⟨w, r⟩, hw, hs⟩ := Exec.bind_eq_ret.mp hs
      cases hs
      exact vfsClose_files h h' hw
  | write a offset buffer =>
      obtain ⟨⟨w, r⟩, hw, hs⟩ := Exec.bind_eq_ret.mp hs
      cases hs
      exact vfsWrite_files h h' hw
  | truncate a length =>
      obtain ⟨⟨w, r⟩, hw, hs⟩ := Exec.bind_eq_ret.mp hs
      cases hs
      exact vfsTruncate_files h h' hw
  | unlink c path =>
      obtain ⟨⟨w, r⟩, hw, hs⟩ := Exec.bind_eq_ret.mp hs
      cases hs
      exact vfsUnlink_files h h' hw
  | mkdir c path =>
      obtain ⟨⟨w, r⟩, hw, hs⟩ := Exec.bind_eq_ret.mp hs
      cases hs
      exact vfsMkdir_files h h' hw
  | link c path targetPath =>
      obtain ⟨⟨w, r⟩, hw, hs⟩ := Exec.bind_eq_ret.mp hs
      cases hs
      exact vfsLink_files h h' hw
  | symlink c target linkpath =>
      obtain ⟨⟨w, r⟩, hw, hs⟩ := Exec.bind_eq_ret.mp hs
      cases hs
      exact vfsSymlink_files h h' hw
  | rename c oldpath newpath =>
      obtain ⟨⟨w, r⟩, hw, hs⟩ := Exec.bind_eq_ret.mp hs
      cases hs
      exact vfsRename_files h h' hw
  | rmdir c path =>
      obtain ⟨⟨w, r⟩, hw, hs⟩ := Exec.bind_eq_ret.mp hs
      cases hs
      exact vfsRmdir_files h h' hw

theorem files_of_boot (h : blobSystem.init v) : v.files = noFiles := by
  obtain ⟨⟨mem, fb, rfl⟩, -⟩ := h
  refine files_ext ?_ ?_
  · funext p
    show (findNode (emptyVfs mem fb) p).bind (emptyVfs mem fb).entryAt = Function.update (fun _ => none) _ _ p
    by_cases hp : p = [slash]
    · subst hp
      rw [Function.update_self]
      rfl
    · rw [Function.update_of_ne hp, findNode, if_neg hp]
      rfl
  · funext a
    show (emptyVfs mem fb).nameAt a = Function.update (fun _ => none) _ _ a
    by_cases ha : a = rootAddr
    · subst ha
      rw [Function.update_self]
      rfl
    · rw [Function.update_of_ne ha]
      exact nameAt_none ha List.not_mem_nil

end Runs

/-- **The file system is a map.**  In every run in which allocations succeed and
each rename of a directory finds room for what is below, the states are those of
a run of `filesSystem`; a read through a handle gives bytes of the entry that is
where the handle is, and `lstat` gives the kind and the size of the entry that is
under the path. -/
theorem vfs_refines_files {v : Vfs} (h : blobSystem.ReachVia PathsKeptApart v) :
    filesSystem.Reach v.files ∧
    (∀ call v', PathsKeptApart v call → vfsCall v call = .ret v' → v.files.Step v'.files call) ∧
    (∀ a p e, v.files.held a = some (p, e) → e.mode &&& 0xF000 = sIfreg → ¬devicePath p → ∀ offset count,
      vfsRead v a offset count = .ret (refRead e.bytes offset count, int32 (refRead e.bytes offset count).length)) ∧
    ∀ c path, FileMap.real c (c.resolve path) → c.resolve path ≠ [slash] → c.resolve path ≠ devFb0 →
      ∃ st, vfsLstat v c path = .ret st ∧
      st.map (fun st => (st.mode, st.size)) = (v.files.entry (c.resolve path)).map fun e => (e.mode, e.bytes.length) := by
  have hinv := FilesInv.of_reach h
  refine ⟨?_, fun call v' hg hs => files_step hinv (hinv.step hg hs) hs, fun a p e he hreg hdev offset count => ?_,
    fun c path hreal hroot hfb => ?_⟩
  · induction h with
    | init h => exact .init (files_of_boot h)
    | @step v v' call h hg hs ih =>
        have hi := FilesInv.of_reach h
        exact .step (ih hi) trivial (files_step hi hinv hs)
  · obtain ⟨q, hname, hq⟩ := Option.bind_eq_some_iff.mp he
    obtain ⟨e', hentry, hpair⟩ := Option.map_eq_some_iff.mp hq
    obtain ⟨rfl, rfl⟩ := Prod.mk.inj hpair
    obtain ⟨b, n, hb, hn, rfl⟩ := hinv.entry_some hentry
    obtain rfl : a = b := hinv.apart a b q hname hb
    have hbit : n.mode &&& sIfdir = 0 := by
      calc n.mode &&& sIfdir = (n.mode &&& 0xF000) &&& sIfdir := by rw [Nat.and_assoc]; rfl
        _ = 0 := by rw [hreg]; rfl
    have hdir : ¬n.dirBit = true := by simp [Node.dirBit, hbit]
    obtain ⟨rfl, -⟩ := hinv.file_of_name hname hn hdir
    exact vfsRead_of_regular hinv.blobs hn
      ⟨hreg, fun he => hdev (.inl he), fun he => hdev (.inr (.inl he)), fun he => hdev (.inr (.inr he))⟩ offset count
  · rw [FileMap.real_iff] at hreal
    unfold vfsLstat
    dsimp only
    rw [hreal]
    dsimp only
    cases hfind : findNode v (c.resolve path) with
    | none => exact ⟨none, rfl, by rw [hinv.entry_none.mpr hfind]; rfl⟩
    | some a =>
        have hname := hinv.findNode_iff.mp hfind
        obtain ⟨n, hn⟩ := hinv.live hname
        have hpath : n.path = c.resolve path := by
          have hpath := (findNode_path hfind hroot).2
          rw [Vfs.path, hn, Option.map_some, Option.some.injEq] at hpath
          exact hpath
        refine ⟨some (fillStat v n), ?_, ?_⟩
        · dsimp only
          rw [Vfs.load, hn, Exec.ret_bind]
        · rw [hinv.entry_eq hname hn, fillStat, if_neg (by rw [hpath]; exact hfb), Option.map_some, Option.map_some,
            Vfs.length_bytes]

/-- One more call, that leaves the paths apart. -/
theorem reachVia_call {v v' : Vfs} (call : VfsCall) (h : blobSystem.ReachVia PathsKeptApart v)
    (hs : vfsCall v call = .ret v') (hunique : UniquePaths v') : blobSystem.ReachVia PathsKeptApart v' := by
  have hinv := FilesInv.of_reach h
  exact .step h ((uniquePaths_step hinv.table hinv.unique hs).mp hunique) hs

/-- A file with two names, in a directory that is renamed: what is written under
one of them is not seen under the other. -/
theorem second_name_keeps_bytes : ∃ v, blobSystem.ReachVia PathsKeptApart v ∧ filesSystem.Reach v.files ∧
    v.files.entry (str "/b/y") = some ⟨sIfreg, [7, 8]⟩ ∧ vfsRead v 2 0 9 = .ret ([7, 9], 2) := by
  have h₀ : blobSystem.ReachVia PathsKeptApart (emptyVfs (memoryOf 0) none) :=
    .init ⟨⟨memoryOf 0, none, rfl⟩, fun _ h => by cases h⟩
  have h₁ := reachVia_call (.mkdir rootCaller (str "/a")) h₀ rfl ⟨by decide, by decide⟩
  have h₂ := reachVia_call (.openPath rootCaller (str "/a/x") 0x40) h₁ rfl ⟨by decide, by decide⟩
  have h₃ := reachVia_call (.write 2 0 [7, 8]) h₂ rfl ⟨by decide, by decide⟩
  have h₄ := reachVia_call (.link rootCaller (str "/a/y") (str "/a/x")) h₃ rfl ⟨by decide, by decide⟩
  have h₅ := reachVia_call (.write 2 1 [9]) h₄ rfl ⟨by decide, by decide⟩
  have h₆ := reachVia_call (.rename rootCaller (str "/a") (str "/b")) h₅ rfl ⟨by decide, by decide⟩
  obtain ⟨hrun, -, hreads, -⟩ := vfs_refines_files h₆
  exact ⟨_, h₆, hrun, by decide, hreads 2 (str "/b/x") ⟨sIfreg, [7, 9]⟩ (by decide) (by decide) (by unfold devicePath; decide) 0 9⟩

end LiteBSD
