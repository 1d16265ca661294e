/-
# `LiteBSD.Initrd.Extract` — the files of the archive, in the file system

While the loop goes over the headers of an archive, the file system holds the
entries it has passed, and nothing else: `Filled` says so of a set of
directories and a set of files, each call of the loop adds to these sets, and
a whole entry adds exactly what it stands for (`Filled.entry`).

Two things can keep an entry from being extracted, and a well-formed archive
may have them: the path of a file or link is also one of a directory, and the
path of a directory is one of a generated file under `/proc` or `/sys`.
Without them, extraction is faithful (`initrd_extracts`).
-/
import LiteBSD.Initrd.Archive
import LiteBSD.Vfs.Additions
import LiteBSD.Vfs.Rename

namespace LiteBSD

open Lib

/-! ## What an archive stands for -/

/-- A directory of the archive: an entry for one, or an ancestor of an
entry. -/
def DirPath (es : List TarEntry) (p : CStr) : Prop :=
  ∃ e ∈ es, ∃ pre, pre <+: e.names ∧ (pre = e.names → e.isDir = true) ∧ p = dirPath pre

/-- A file of the archive with its bytes: those of its entry, or those of the
file that it is a link to. -/
def FilePath (es : List TarEntry) (p : CStr) (file : List UInt8) : Prop :=
  ∃ e ∈ es, p = e.path ∧ (e.isFile = true ∧ file = e.data ∨
    e.isLink = true ∧ ∃ f ∈ es, f.isFile = true ∧ spelledPath e.linkname = f.path ∧ file = f.data)

/-- The directory is there, as a node or as a generated one. -/
def IsDirectory (pids : List Nat) (v : Vfs) (p : CStr) : Prop :=
  (∃ sid, synthLookup pids p = some sid ∧ sid.isDir = true) ∨
    ∃ a n, findNode v p = some a ∧ v.node a = some n ∧ isDirNode n = true

/-- There is a regular file at this path, with exactly these bytes. -/
def HoldsFile (v : Vfs) (p : CStr) (file : List UInt8) : Prop :=
  ∃ a n, findNode v p = some a ∧ v.node a = some n ∧ n.mode = sIfreg ∧ v.bytes n = file

/-- The file system holds the archive and nothing else. -/
structure Extracted (pids : List Nat) (v : Vfs) (es : List TarEntry) : Prop where
  dirs : ∀ p, DirPath es p → IsDirectory pids v p
  files : ∀ p file, FilePath es p file → HoldsFile v p file
  only : ∀ a n, v.node a = some n → a = rootAddr ∨
    a ∈ v.nodes ∧ (DirPath es n.path ∨ ∃ file, FilePath es n.path file)

/-- Not below `/proc` or `/sys`, and not one of the devices. -/
def TarEntry.Outside (e : TarEntry) : Prop :=
  e.names.head? ≠ some (str "proc") ∧ e.names.head? ≠ some (str "sys") ∧
    e.path ≠ devNull ∧ e.path ≠ devZero ∧ e.path ≠ devFb0

/-- The names are well formed, those of files and links are distinct and lead
outside of the generated trees, and a link is to a file before it. -/
structure WellFormedArchive (es : List TarEntry) : Prop where
  entries : ∀ e ∈ es, e.WellFormed
  distinct : es.Pairwise fun e f => e.holdsData = true → f.holdsData = true → e.path ≠ f.path
  outside : ∀ e ∈ es, e.holdsData = true → e.Outside
  targets : ∀ front e back, es = front ++ e :: back → e.isLink = true →
    ∃ f ∈ front, f.isFile = true ∧ spelledPath e.linkname = f.path

/-- No path is one of a file or link and of a directory, and no directory is
at the place of a generated file. -/
structure Unmixed (pids : List Nat) (es : List TarEntry) : Prop where
  files : ∀ e ∈ es, e.holdsData = true → ¬DirPath es e.path
  synth : ∀ p sid, DirPath es p → synthLookup pids p = some sid → sid.isDir = true

/-! ## The generated trees -/

/-- Every path of an entry of `/proc` or `/sys` begins so. -/
theorem entryPath_head {pids : List Nat} {path : CStr} {sid : SynthId} (h : EntryPath pids path sid) :
    (components path).head? = some (str "proc") ∨ (components path).head? = some (str "sys") := by
  have htop : ∀ top, top ≠ [] → slash ∉ top → ∀ rest, (components (slash :: (top ++ slash :: rest))).head? = some top := by
    intro top hne htop rest
    rw [components_slash, components_first_slash hne htop]
    rfl
  have hproc : ∀ rest, (components (str "/proc/" ++ rest)).head? = some (str "proc") :=
    htop (str "proc") (by decide) (by decide)
  have hsys : ∀ rest, (components (str "/sys/" ++ rest)).head? = some (str "sys") :=
    htop (str "sys") (by decide) (by decide)
  cases h with
  | proc => exact .inl (by decide)
  | net => exact .inl (hproc (str "net"))
  | proFile _ => exact .inl (hproc _)
  | pidDir _ _ => exact .inl (hproc _)
  | pidFile _ _ _ => exact .inl (hproc _)
  | sysDir hslot =>
    have htable : ∀ dir ∈ sysDirs, (components dir).head? = some (str "sys") := by decide
    exact .inr (htable path (List.mem_of_getElem? hslot))
  | sysFile _ => exact .inr (hsys _)

theorem components_dirPath {names : List CStr} (h : ∀ name ∈ names, ProperName name) :
    components (dirPath names) = names := by
  unfold dirPath
  split
  · rename_i hnil
    rw [hnil]
    rfl
  · exact components_pathOf fun name hname => ⟨(h name hname).ne_nil, (h name hname).no_slash⟩

/-- A file outside of them is not generated. -/
theorem TarEntry.Outside.lookup {e : TarEntry} (h : e.Outside) (hproper : ∀ name ∈ e.names, ProperName name)
    (pids : List Nat) : synthLookup pids e.path = none := by
  cases hlookup : synthLookup pids e.path with
  | none => rfl
  | some sid =>
    have hhead := entryPath_head (synthLookup_iff.mp hlookup)
    rw [TarEntry.path, components_dirPath hproper] at hhead
    exact (hhead.elim h.1 h.2.1).elim

/-! ## The file system on the way -/

/-- What every call but a rename keeps. -/
structure Sound (v : Vfs) : Prop where
  table : NodeTable v
  blobs : BlobInv v
  unique : UniquePaths v

/-- The file system holds these directories and these files. -/
structure Filled (pids : List Nat) (v : Vfs) (dirs : CStr → Prop) (files : CStr → List UInt8 → Prop) : Prop where
  sound : Sound v
  blocks : AllBlocks v
  dir : ∀ p, dirs p → (∃ sid, synthLookup pids p = some sid ∧ sid.isDir = true) ∨ p = [slash] ∨
    ∃ a n, a ∈ v.nodes ∧ v.node a = some n ∧ n.path = p ∧ n.mode = sIfdir
  file : ∀ p file, files p file → ∃ a n, a ∈ v.nodes ∧ v.node a = some n ∧ n.path = p ∧ n.mode = sIfreg ∧
    v.bytes n = file
  only : ∀ a n, v.node a = some n → a = rootAddr ∨ a ∈ v.nodes ∧ (dirs n.path ∨ ∃ file, files n.path file)

theorem Sound.step {v v' : Vfs} {call : VfsCall} (h : Sound v) (hs : vfsCall v call = .ret v')
    (hk : PathsKeptApart v call) : Sound v' where
  table := h.table.step hs
  blobs := (blob_step h.blobs h.table hs).inv
  unique := (uniquePaths_step h.table h.unique hs).mpr hk

section Filling

variable {c : Caller} {v v' : Vfs} {dirs dirs' : CStr → Prop} {files files' : CStr → List UInt8 → Prop}
  {a : Nat} {n : Node} {p path : CStr}

namespace Filled

/-- The sets count as what they contain. -/
theorem congr (h : Filled c.pids v dirs files) (hd : ∀ p, dirs' p ↔ dirs p) (hf : ∀ p file, files' p file ↔ files p file) :
    Filled c.pids v dirs' files' where
  sound := h.sound
  blocks := h.blocks
  dir := fun p hp => h.dir p ((hd p).mp hp)
  file := fun p file hp => h.file p file ((hf p file).mp hp)
  only := fun a n hn => (h.only a n hn).imp id fun hl => ⟨hl.1, hl.2.imp (hd _).mpr fun ⟨file, hp⟩ => ⟨file, (hf _ _).mpr hp⟩⟩

/-- A directory that is there may be counted. -/
theorem more (h : Filled c.pids v dirs files) (hp : (∃ sid, synthLookup c.pids p = some sid ∧ sid.isDir = true) ∨
    p = [slash] ∨ ∃ a n, a ∈ v.nodes ∧ v.node a = some n ∧ n.path = p ∧ n.mode = sIfdir) :
    Filled c.pids v (fun q => dirs q ∨ q = p) files where
  sound := h.sound
  blocks := h.blocks
  dir := by
    rintro q (hq | rfl)
    · exact h.dir q hq
    · exact hp
  file := h.file
  only := fun a n hn => (h.only a n hn).imp id fun hl => ⟨hl.1, hl.2.imp .inl id⟩

/-- A new node joins the set it belongs to. -/
theorem added (h : Filled c.pids v dirs files) (hs : Sound v') (hadd : Added v v' a n)
    (hd : ∀ p, dirs' p ↔ dirs p ∨ p = n.path ∧ n.mode = sIfdir)
    (hf : ∀ p file, files' p file ↔ files p file ∨ p = n.path ∧ n.mode = sIfreg ∧ file = v'.bytes n)
    (hmode : n.mode = sIfdir ∨ n.mode = sIfreg) : Filled c.pids v' dirs' files' := by
  have hhere : a ∈ v'.nodes := hadd.nodes ▸ List.mem_cons_self
  have hkept : ∀ x m, x ∈ v.nodes → v.node x = some m → x ∈ v'.nodes ∧
      ∃ m', v'.node x = some m' ∧ m'.path = m.path ∧ m'.mode = m.mode ∧ v'.bytes m' = v.bytes m := by
    intro x m hx hm
    have hxa : x ≠ a := by
      rintro rfl
      rw [hadd.fresh] at hm
      cases hm
    exact ⟨hadd.nodes ▸ List.mem_cons_of_mem _ hx, hadd.others x m hxa hm⟩
  refine ⟨hs, fun i => hadd.mem ▸ h.blocks i, fun p hp => ?_, fun p file hp => ?_, fun x m hm => ?_⟩
  · rcases (hd p).mp hp with hp | ⟨rfl, hdir⟩
    · obtain hsynth | hroot | ⟨x, m, hx, hm, rfl, hdir⟩ := h.dir p hp
      · exact .inl hsynth
      · exact .inr (.inl hroot)
      · obtain ⟨hx', m', hm', hpath, hmode, _⟩ := hkept x m hx hm
        exact .inr (.inr ⟨x, m', hx', hm', hpath, hmode.trans hdir⟩)
    · exact .inr (.inr ⟨a, n, hhere, hadd.here, rfl, hdir⟩)
  · rcases (hf p file).mp hp with hp | ⟨rfl, hreg, rfl⟩
    · obtain ⟨x, m, hx, hm, rfl, hreg, rfl⟩ := h.file p file hp
      obtain ⟨hx', m', hm', hpath, hmode, hbytes⟩ := hkept x m hx hm
      exact ⟨x, m', hx', hm', hpath, hmode.trans hreg, hbytes⟩
    · exact ⟨a, n, hhere, hadd.here, rfl, hreg, rfl⟩
  · by_cases hxa : x = a
    · subst hxa
      obtain rfl : n = m := Option.some.inj (hadd.here.symm.trans hm)
      refine .inr ⟨hhere, ?_⟩
      exact hmode.imp (fun hdir => (hd _).mpr (.inr ⟨rfl, hdir⟩)) fun hreg => ⟨_, (hf _ _).mpr (.inr ⟨rfl, hreg, rfl⟩)⟩
    · cases hold : v.node x with
      | none =>
        rw [hadd.only x hxa hold] at hm
        cases hm
      | some m₀ =>
        refine (h.only x m₀ hold).imp id fun ⟨hx, hset⟩ => ?_
        obtain ⟨hx', m', hm', hpath, _⟩ := hkept x m₀ hx hold
        obtain rfl : m = m' := Option.some.inj (hm.symm.trans hm')
        rw [hpath]
        exact ⟨hx', hset.imp (fun hp => (hd _).mpr (.inl hp)) fun ⟨file, hp⟩ => ⟨file, (hf _ _).mpr (.inl hp)⟩⟩

/-- What is not counted is not there. -/
theorem absent (h : Filled c.pids v dirs files) (hroot : p ≠ [slash]) (hd : ¬dirs p) (hf : ∀ file, ¬files p file) :
    findNode v p = none := by
  rw [findNode, if_neg hroot, List.find?_eq_none]
  intro a ha hpath
  obtain ⟨n, hn, _⟩ := h.sound.table.listed a ha
  have hp : n.path = p := by
    have hpath := hasPath_iff.mp hpath
    rw [Vfs.path, hn] at hpath
    exact Option.some.inj hpath
  rcases h.only a n hn with rfl | ⟨_, hset⟩
  · exact h.sound.table.rootOff ha
  · rw [hp] at hset
    exact hset.elim hd (not_exists.mpr hf)

theorem fresh (h : Filled c.pids v dirs files) : v.node v.nextObj = none := h.sound.table.fresh _ (Nat.le_refl _)

theorem resolved_ok (c : Caller) (path : CStr) : lengthOk (c.resolve path) = true := by
  have hlen : (c.resolve path).length ≤ 255 := vfsResolvePath_length _ _
  have hpos : 0 < (c.resolve path).length := List.length_pos_iff.mpr (vfsResolvePath_ne_nil _ _)
  refine decide_eq_true ⟨?_, ?_⟩ <;> unfold stringLength <;> omega

/-- A directory is made where there is none; nothing else has its path. -/
theorem mkdir (h : Filled c.pids v dirs files) (hhead : (c.resolve path).head? = some slash)
    (hsynth : ∀ sid, synthLookup c.pids (c.resolve path) = some sid → sid.isDir = true)
    (hf : ∀ file, ¬files (c.resolve path) file) : ∃ v' ret, vfsMkdir v c path = .ret (v', ret) ∧
      Filled c.pids v' (fun q => dirs q ∨ q = c.resolve path) files := by
  cases hlookup : synthLookup c.pids (c.resolve path) with
  | some sid =>
    exact ⟨v, -1, vfsMkdir_present (.inl (by rw [hlookup]; rfl)), h.more (.inl ⟨sid, hlookup, hsynth sid hlookup⟩)⟩
  | none =>
    cases hfind : findNode v (c.resolve path) with
    | some a =>
      refine ⟨v, -1, vfsMkdir_present (.inr (by rw [hfind]; rfl)), h.more ?_⟩
      by_cases hroot : c.resolve path = [slash]
      · exact .inr (.inl hroot)
      · obtain ⟨hlisted, hpath⟩ := findNode_path hfind hroot
        obtain ⟨n, hn, hp⟩ := Option.map_eq_some_iff.mp hpath
        rw [← hp] at hf ⊢
        rcases h.only a n hn with rfl | ⟨_, hdir | ⟨file, hfile⟩⟩
        · exact absurd hlisted h.sound.table.rootOff
        · exact h.dir n.path hdir
        · exact absurd hfile (hf file)
    | none =>
      have hok : pathOk (c.resolve path) = true := decide_eq_true ⟨hhead, resolved_ok c path⟩
      obtain ⟨v', n, hret, hadd, hpath, hmode⟩ := vfsMkdir_added h.blocks h.fresh hlookup hfind hok
      have hcall : vfsCall v (.mkdir c path) = .ret v' := by
        show (vfsMkdir v c path >>= _) = _
        rw [hret]
        rfl
      refine ⟨v', 0, hret, h.added (h.sound.step hcall trivial) hadd (fun p => ?_) (fun p file => ?_) (.inl hmode)⟩
      · rw [hpath, hmode]
        exact or_congr_right (and_iff_left rfl).symm
      · rw [hmode]
        exact (or_iff_left fun hno => absurd hno.2.1 (by decide)).symm

/-- Several directories, one after the other. -/
theorem mkdirs (paths : List CStr) (h : Filled c.pids v dirs files)
    (hok : ∀ path ∈ paths, (c.resolve path).head? = some slash ∧
      (∀ sid, synthLookup c.pids (c.resolve path) = some sid → sid.isDir = true) ∧ ∀ file, ¬files (c.resolve path) file) :
    ∃ v', paths.foldlM (fun v dir => do let (v, _) ← vfsMkdir v c dir; Exec.ret v) v = .ret v' ∧
      Filled c.pids v' (fun q => dirs q ∨ ∃ path ∈ paths, q = c.resolve path) files := by
  induction paths generalizing v dirs with
  | nil =>
    refine ⟨v, rfl, h.congr (fun p => or_iff_left ?_) fun _ _ => Iff.rfl⟩
    rintro ⟨path, hmem, _⟩
    cases hmem
  | cons path paths ih =>
    obtain ⟨hhead, hsynth, hf⟩ := hok path List.mem_cons_self
    obtain ⟨w, ret, hret, hw⟩ := h.mkdir hhead hsynth hf
    obtain ⟨v', hrest, hv'⟩ := ih hw fun q hq => hok q (List.mem_cons_of_mem _ hq)
    refine ⟨v', ?_, hv'.congr (fun p => ?_) fun _ _ => Iff.rfl⟩
    · rw [List.foldlM_cons, hret]
      exact hrest
    · rw [List.exists_mem_cons_iff, or_assoc]

/-- A call that makes a node of a regular file. -/
theorem addedFile (h : Filled c.pids v dirs files) (hs : Sound v') (hadd : Added v v' a n) (hmode : n.mode = sIfreg)
    {file : List UInt8} (hbytes : v'.bytes n = file) :
    Filled c.pids v' dirs fun q f => files q f ∨ q = n.path ∧ f = file := by
  refine h.added hs hadd (fun p => ?_) (fun p f => ?_) (.inr hmode)
  · rw [hmode]
    exact (or_iff_left fun hno => absurd hno.2 (by decide)).symm
  · rw [hmode, hbytes]
    exact or_congr_right (and_congr_right fun _ => (and_iff_right rfl).symm)

/-- A file comes to hold the data of its entry. -/
theorem fileLoaded (h : Filled c.pids v dirs files) {mem : Nat → UInt8} {stop addr : Nat} {e : TarEntry}
    (hdec : Decoded mem stop addr e) (hfile : e.isFile = true) (hmax : e.data.length ≤ 8388608)
    (hroot : c.resolve path ≠ [slash]) (hsynth : synthLookup c.pids (c.resolve path) = none)
    (hdev : c.resolve path ≠ devNull ∧ c.resolve path ≠ devZero ∧ c.resolve path ≠ devFb0)
    (hd : ¬dirs (c.resolve path)) (hf : ∀ file, ¬files (c.resolve path) file) :
    ∃ v', loadFile mem stop addr v c path = .ret v' ∧
      Filled c.pids v' dirs fun q f => files q f ∨ q = c.resolve path ∧ f = e.data := by
  obtain ⟨v₁, hopen, hadd₁⟩ := vfsOpen_added h.blocks h.fresh (by decide : oCreat 0x42 = true) hsynth
    (h.absent hroot hd hf) (resolved_ok c path)
  have hcall₁ : vfsCall v (.openPath c path 0x42) = .ret v₁ := by
    show (vfsOpen v c path 0x42 >>= _) = _
    rw [hopen]
    rfl
  have hs₁ := h.sound.step hcall₁ trivial
  have hall₁ : AllBlocks v₁ := fun i => hadd₁.mem ▸ h.blocks i
  -- the data, if there is any
  have hfilled : ∃ v₂ n, (dataRange mem stop addr = none ∧ v₂ = v₁ ∨
        ∃ first size ret, dataRange mem stop addr = some (first, size) ∧
          vfsWrite v₁ v.nextObj 0 (memBytes mem first size) = .ret (v₂, ret)) ∧
      Sound v₂ ∧ Added v v₂ v.nextObj n ∧ n.path = c.resolve path ∧ n.mode = sIfreg ∧ n.synth = false ∧
      v₂.bytes n = e.data := by
    rw [hdec.data]
    by_cases hdata : e.data = []
    · exact ⟨v₁, _, .inl ⟨if_neg fun hc => hc.2 hdata, rfl⟩, hs₁, hadd₁, rfl, rfl, rfl, hdata.symm⟩
    · obtain ⟨v₂, n, ret, hwrite, hadd₂, hlabel, hbytes⟩ := vfsWrite_added hall₁ hs₁.blobs hadd₁
        ⟨rfl, rfl, rfl, rfl, rfl, rfl, hdev⟩ (List.length_pos_iff.mpr hdata) hmax
      have hcall₂ : vfsCall v₁ (.write v.nextObj 0 e.data) = .ret v₂ := by
        show (vfsWrite v₁ v.nextObj 0 e.data >>= _) = _
        rw [hwrite]
        rfl
      refine ⟨v₂, n, .inr ⟨_, _, ret, if_pos ⟨hfile, hdata⟩, ?_⟩, hs₁.step hcall₂ trivial, hadd₂,
        congrArg Label.path hlabel, congrArg Label.mode hlabel, congrArg Label.synth hlabel, hbytes⟩
      rw [hdec.bytes, hwrite]
  obtain ⟨v₂, n, hload, hs₂, hadd₂, hpath, hmode, hreal, hbytes⟩ := hfilled
  obtain ⟨v₃, refs, hclose, hadd₃, hbytes₃⟩ := vfsClose_added hadd₂ hreal
  have hcall₃ : vfsCall v₂ (.close v.nextObj) = .ret v₃ := by
    show (vfsClose v₂ v.nextObj >>= _) = _
    rw [hclose]
    rfl
  refine ⟨v₃, ?_, ?_⟩
  · rw [loadFile, hopen, Exec.ret_bind]
    dsimp only
    rcases hload with ⟨hrange, rfl⟩ | ⟨first, size, ret, hrange, hwrite⟩
    · rw [hrange, Exec.ret_bind, hclose]
      rfl
    · rw [hrange]
      dsimp only
      rw [hwrite, Exec.ret_bind, Exec.ret_bind, hclose]
      rfl
  · have hall := h.addedFile (hs₂.step hcall₃ trivial) hadd₃ hmode (hbytes₃.trans hbytes)
    rw [show ({ n with refs := refs } : Node).path = c.resolve path from hpath] at hall
    exact hall

/-- A link comes to hold what its target holds. -/
theorem linkLoaded (h : Filled c.pids v dirs files) {target : CStr} {file : List UInt8} (hfile : files target file)
    (htarget : c.resolve target = target) (hreal : synthLookup c.pids target = none)
    (hhead : (c.resolve path).head? = some slash) (hroot : c.resolve path ≠ [slash])
    (hsynth : synthLookup c.pids (c.resolve path) = none) (hd : ¬dirs (c.resolve path))
    (hf : ∀ file, ¬files (c.resolve path) file) :
    ∃ v', loadLink v c path target = .ret v' ∧
      Filled c.pids v' dirs fun q f => files q f ∨ q = c.resolve path ∧ f = file := by
  obtain ⟨t, m, ht, hm, rfl, hmode, rfl⟩ := h.file target file hfile
  have hfind : findNode v m.path = some t := h.sound.unique.find ht (by rw [Vfs.path, hm]; rfl)
  have hdir : m.dirBit = false := by rw [Node.dirBit, hmode]; rfl
  have hcell : ∀ k, m.dataRefs = some k → ∃ refs, v.cell k = some refs := fun k hk =>
    ⟨_, (h.sound.blobs.counted.of_held ht ((counterOf_eq hm).trans hk)).1⟩
  obtain ⟨v', n, hlink, hadd, hpath, hmode', hbytes⟩ := vfsLink_added h.blocks h.fresh hsynth (h.absent hroot hd hf)
    (decide_eq_true ⟨hhead, resolved_ok c path⟩) (htarget.symm ▸ hreal) (htarget.symm ▸ hfind) hm hdir hcell
  have hcall : vfsCall v (.link c path m.path) = .ret v' := by
    show (vfsLink v c path m.path >>= _) = _
    rw [hlink]
    rfl
  refine ⟨v', ?_, ?_⟩
  · rw [loadLink, hfind]
    dsimp only
    rw [hlink]
    rfl
  · have hall := h.addedFile (h.sound.step hcall trivial) hadd (hmode'.trans hmode) hbytes
    rw [hpath] at hall
    exact hall

end Filled

end Filling

/-! ## One entry -/

namespace TarEntry

variable {e : TarEntry}

theorem isFile_apart (h : e.isFile = true) : e.isDir = false ∧ e.isLink = false := by
  have htype : e.type = 48 ∨ e.type = 0 := of_decide_eq_true h
  unfold isDir isLink
  rcases htype with h | h <;> rw [h] <;> exact ⟨rfl, rfl⟩

theorem isLink_apart (h : e.isLink = true) : e.isDir = false ∧ e.isFile = false := by
  have htype : e.type = 49 ∨ e.type = 50 := of_decide_eq_true h
  unfold isDir isFile
  rcases htype with h | h <;> rw [h] <;> exact ⟨rfl, rfl⟩

theorem holdsData_iff : e.holdsData = true ↔ e.isFile = true ∨ e.isLink = true := by
  rw [holdsData, Bool.or_eq_true]

/-- A file or link has a name below the root. -/
theorem WellFormed.names_ne (h : e.WellFormed) (hdir : e.isDir = false) : e.names ≠ [] := by
  have hlast := h.open_end hdir
  obtain ⟨front, hsplit⟩ := stripDot_suffix e.name
  by_cases hnil : stripDot e.name = []
  · -- the name would be `./`
    exfalso
    unfold stripDot at hnil
    split at hnil
    · rename_i hdot
      rw [← List.take_append_drop 2 e.name, hdot, hnil] at hlast
      exact hlast rfl
    · exact h.name_ne hnil
  · rw [← hsplit, List.getLast?_append_of_ne_nil _ hnil] at hlast
    exact components_ne_nil_of_last hnil hlast

theorem WellFormed.path_ne_root (h : e.WellFormed) (hne : e.names ≠ []) : e.path ≠ [slash] := by
  intro hroot
  have hcomps := components_dirPath h.proper
  rw [← TarEntry.path, hroot] at hcomps
  exact hne hcomps.symm

end TarEntry

theorem dirPath_head (names : List CStr) : (dirPath names).head? = some slash := by
  unfold dirPath
  split
  · rfl
  · rename_i hne
    obtain ⟨name, names, rfl⟩ := List.exists_cons_of_ne_nil hne
    rfl

/-- The path of an entry resolves to itself. -/
theorem TarEntry.WellFormed.resolve {e : TarEntry} (h : e.WellFormed) (c : Caller) : c.resolve e.path = e.path := by
  have hcomps : components e.path = e.names := components_dirPath h.proper
  have hlen : e.path.length ≤ 255 := by
    have hshort := length_pathOf_components (stripDot e.name)
    have hstrip := (stripDot_suffix e.name).length_le
    have hfits := h.name_fits
    unfold TarEntry.path dirPath
    split
    · decide
    · exact Nat.le_trans hshort (by omega)
  have hhead : e.path.head? = some slash := dirPath_head e.names
  have hplain := resolve_plain (if c.cwd = [] then [slash] else c.cwd) hhead (by rw [hcomps]; exact h.proper) hlen
  rw [hcomps] at hplain
  exact hplain

section Entry

variable {done back : List TarEntry} {e : TarEntry} {p : CStr} {file : List UInt8}

theorem dirPath_snoc : DirPath (done ++ [e]) p ↔
    DirPath done p ∨ ∃ pre, pre <+: e.names ∧ (pre = e.names → e.isDir = true) ∧ p = dirPath pre := by
  unfold DirPath
  simp only [List.mem_append, List.mem_singleton, or_and_right, exists_or, exists_eq_left]

/-- Files and links are told apart by their paths. -/
theorem WellFormedArchive.same_path {es : List TarEntry} {x y : TarEntry} (h : WellFormedArchive es) (hx : x ∈ es)
    (hy : y ∈ es) (hxdata : x.holdsData = true) (hydata : y.holdsData = true) (hp : x.path = y.path) : x = y := by
  have hpair := List.pairwise_iff_getElem.mp h.distinct
  obtain ⟨i, hi, rfl⟩ := List.getElem_of_mem hx
  obtain ⟨j, hj, rfl⟩ := List.getElem_of_mem hy
  rcases Nat.lt_trichotomy i j with hlt | rfl | hlt
  · exact absurd hp (hpair i j hi hj hlt hxdata hydata)
  · rfl
  · exact absurd hp.symm (hpair j i hj hi hlt hydata hxdata)

/-- The path of a file or link is that of an entry. -/
theorem FilePath.entry (h : FilePath done p file) : ∃ x ∈ done, x.holdsData = true ∧ p = x.path := by
  obtain ⟨x, hx, hp, hkind⟩ := h
  exact ⟨x, hx, TarEntry.holdsData_iff.mpr (hkind.imp And.left And.left), hp⟩

/-- Another entry comes behind: the links in front of it keep their
targets. -/
theorem filePath_snoc (hwf : WellFormedArchive (done ++ e :: back)) : FilePath (done ++ [e]) p file ↔
    FilePath done p file ∨ p = e.path ∧ (e.isFile = true ∧ file = e.data ∨
      e.isLink = true ∧ ∃ f ∈ done, f.isFile = true ∧ spelledPath e.linkname = f.path ∧ file = f.data) := by
  have hapart := (List.pairwise_append.mp hwf.distinct).2.2
  have hdone : ∀ x ∈ done ++ [e], x ∈ done ∨ x = e := fun x hx => (List.mem_append.mp hx).imp id List.mem_singleton.mp
  constructor
  · rintro ⟨x, hx, hp, hkind⟩
    rcases hdone x hx with hold | rfl
    · left
      refine ⟨x, hold, hp, hkind.imp id fun ⟨hlink, f, hf, hfile, hspelled, hdata⟩ => ⟨hlink, f, ?_, hfile, hspelled, hdata⟩⟩
      rcases hdone f hf with hbefore | rfl
      · exact hbefore
      · -- then two files would have the path of the target
        exfalso
        obtain ⟨front, rest, rfl⟩ := List.append_of_mem hold
        obtain ⟨t, ht, htfile, htarget⟩ := hwf.targets front x (rest ++ f :: back) (by simp) hlink
        exact hapart t (List.mem_append_left _ ht) f List.mem_cons_self (TarEntry.holdsData_iff.mpr (.inl htfile))
          (TarEntry.holdsData_iff.mpr (.inl hfile)) (htarget.symm.trans hspelled)
    · right
      refine ⟨hp, hkind.imp id fun ⟨hlink, f, hf, hfile, hrest⟩ => ⟨hlink, f, ?_, hfile, hrest⟩⟩
      rcases hdone f hf with hf | rfl
      · exact hf
      · rw [(TarEntry.isLink_apart hlink).2] at hfile
        cases hfile
  · rintro (⟨x, hx, hp, hkind⟩ | ⟨hp, hkind⟩)
    · exact ⟨x, List.mem_append_left _ hx, hp, hkind.imp id fun ⟨hlink, f, hf, hrest⟩ =>
        ⟨hlink, f, List.mem_append_left _ hf, hrest⟩⟩
    · exact ⟨e, List.mem_append_right _ (List.mem_singleton_self e), hp, hkind.imp id fun ⟨hlink, f, hf, hrest⟩ =>
        ⟨hlink, f, List.mem_append_left _ hf, hrest⟩⟩

theorem DirPath.mono {es es' : List TarEntry} (h : DirPath es p) (hsub : es ⊆ es') : DirPath es' p := by
  obtain ⟨x, hx, hrest⟩ := h
  exact ⟨x, hsub hx, hrest⟩

variable {c : Caller} {v : Vfs} {path : CStr}

/-- The directories on the way to an entry. -/
theorem Filled.parents (h : Filled c.pids v (DirPath done) (FilePath done)) (hwf : WellFormedArchive (done ++ e :: back))
    (hun : Unmixed c.pids (done ++ e :: back)) (hhead : path.head? = some slash) (hlen : path.length ≤ 255)
    (hcomps : components path = e.names) (hopen : e.isDir = false → path.getLast? ≠ some slash) :
    ∃ v' dirs, ensureParentDirs v c path = .ret v' ∧ Filled c.pids v' dirs (FilePath done) ∧
      (∀ p, DirPath done p → dirs p) ∧ (∀ p, dirs p → DirPath (done ++ [e]) p) ∧
      ∀ pre, pre <+: e.names → pre ≠ e.names → dirs (dirPath pre) := by
  have hmem : e ∈ done ++ e :: back := List.mem_append_right _ List.mem_cons_self
  have hproper := (hwf.entries e hmem).proper
  have hparent : ∀ d ∈ parentDirs path, c.resolve d = dirPath (components d) ∧ components d <+: e.names ∧
      (components d = e.names → e.isDir = true) := by
    intro d hd
    obtain ⟨hdhead, hdlen, hpre, hne⟩ := mem_parentDirs hhead hlen hd
    rw [hcomps] at hpre hne
    refine ⟨resolve_plain _ hdhead (fun name hname => hproper name (hpre.subset hname)) hdlen, hpre, fun heq => ?_⟩
    cases hdir : e.isDir with
    | true => rfl
    | false => exact absurd heq (hne (hopen hdir))
  have hdirs : ∀ d ∈ parentDirs path, DirPath (done ++ e :: back) (c.resolve d) := by
    intro d hd
    obtain ⟨heq, hpre, hlast⟩ := hparent d hd
    exact ⟨e, hmem, components d, hpre, hlast, heq⟩
  have hfree : ∀ p, DirPath (done ++ e :: back) p → ∀ file, ¬FilePath done p file := by
    intro p hp file hfile
    obtain ⟨x, hx, hdata, rfl⟩ := hfile.entry
    exact hun.files x (List.mem_append_left _ hx) hdata hp
  obtain ⟨v', hret, hfilled⟩ := h.mkdirs (parentDirs path) fun d hd => ⟨by
    rw [(hparent d hd).1]
    exact dirPath_head _, fun sid => hun.synth _ sid (hdirs d hd), hfree _ (hdirs d hd)⟩
  refine ⟨v', _, hret, hfilled.more (.inr (.inl rfl)), fun p hp => .inl (.inl hp), ?_, fun pre hpre hne => ?_⟩
  · have hself : ∀ pre, pre <+: e.names → (pre = e.names → e.isDir = true) → DirPath (done ++ [e]) (dirPath pre) :=
      fun pre hpre hlast => dirPath_snoc.mpr (.inr ⟨pre, hpre, hlast, rfl⟩)
    rintro p ((hp | ⟨d, hd, rfl⟩) | rfl)
    · exact dirPath_snoc.mpr (.inl hp)
    · obtain ⟨heq, hpre, hlast⟩ := hparent d hd
      rw [heq]
      exact hself _ hpre hlast
    · refine hself [] List.nil_prefix fun hroot => ?_
      cases hdir : e.isDir with
      | true => rfl
      | false => exact absurd hroot.symm ((hwf.entries e hmem).names_ne hdir)
  · by_cases hnil : pre = []
    · subst hnil
      exact .inr rfl
    · rw [← hcomps] at hpre hne
      obtain ⟨d, hd, rfl⟩ := exists_parentDir hlen hpre hnil hne
      exact .inl (.inr ⟨d, hd, (hparent d hd).1.symm⟩)

/-- The body of the loop adds an entry. -/
theorem Filled.entry (h : Filled c.pids v (DirPath done) (FilePath done)) (hwf : WellFormedArchive (done ++ e :: back))
    (hun : Unmixed c.pids (done ++ e :: back)) {mem : Nat → UInt8} {stop addr : Nat} (hdec : Decoded mem stop addr e)
    (hmax : e.isFile = true → e.data.length ≤ 8388608) : ∃ v', loadEntry mem c stop v addr = .ret v' ∧
      Filled c.pids v' (DirPath (done ++ [e])) (FilePath (done ++ [e])) := by
  have hmem : e ∈ done ++ e :: back := List.mem_append_right _ List.mem_cons_self
  have hentry := hwf.entries e hmem
  have hsub : done ++ [e] ⊆ done ++ e :: back :=
    List.append_subset.mpr ⟨List.subset_append_left _ _, List.forall_mem_singleton.mpr hmem⟩
  have hfiles : e.holdsData = false → ∀ p file, FilePath (done ++ [e]) p file ↔ FilePath done p file := by
    intro hno p file
    rw [filePath_snoc hwf]
    refine or_iff_left fun ⟨_, hkind⟩ => ?_
    rw [TarEntry.holdsData_iff.mpr (hkind.imp And.left And.left)] at hno
    cases hno
  unfold loadEntry
  rw [hdec.type, hdec.name]
  dsimp only
  obtain ⟨hnil, hnorm⟩ | ⟨path, hnorm, hhead, hlen, hcomps, hopen⟩ :=
    normalizePath_spec (isDirType e.type) hentry.name_fits hentry.proper
  · -- the root itself
    have hdir : e.isDir = true := by
      cases hdir : e.isDir with
      | true => rfl
      | false => exact absurd hnil (hentry.names_ne hdir)
    have hdata : e.holdsData = false := by
      cases hdata : e.holdsData with
      | false => rfl
      | true =>
        rcases TarEntry.holdsData_iff.mp hdata with hk | hk
        · rw [(TarEntry.isFile_apart hk).1] at hdir
          cases hdir
        · rw [(TarEntry.isLink_apart hk).1] at hdir
          cases hdir
    rw [hnorm]
    refine ⟨v, rfl, (h.more (.inr (.inl rfl))).congr (fun p => ?_) (hfiles hdata)⟩
    rw [dirPath_snoc]
    refine or_congr_right ⟨?_, fun hp => ⟨[], List.nil_prefix, fun _ => hdir, hp⟩⟩
    rintro ⟨pre, hpre, _, rfl⟩
    rw [show e.names = [] from hnil] at hpre
    rw [List.prefix_nil.mp hpre]
    rfl
  · rw [hnorm]
    dsimp only
    obtain ⟨v₁, dirs, hparents, hfilled, hold, hnew, hpre⟩ := h.parents hwf hun hhead hlen hcomps
      fun hdir => hopen hdir (hentry.open_end hdir)
    have hresolve : c.resolve path = e.path := by
      have hplain := resolve_plain (if c.cwd = [] then [slash] else c.cwd) hhead (by rw [hcomps]; exact hentry.proper) hlen
      rw [hcomps] at hplain
      exact hplain
    have hdirs : e.isDir = false → ∀ p, DirPath (done ++ [e]) p ↔ dirs p := by
      intro hdir p
      refine ⟨fun hp => ?_, hnew p⟩
      rcases dirPath_snoc.mp hp with hp | ⟨pre, hprefix, hlast, rfl⟩
      · exact hold p hp
      · refine hpre pre hprefix fun heq => ?_
        rw [hdir] at hlast
        cases hlast heq
    have hclash : e.holdsData = true → ¬dirs e.path ∧ ∀ file, ¬FilePath done e.path file := by
      intro hdata
      refine ⟨fun hp => hun.files e hmem hdata ((hnew _ hp).mono hsub), fun file hfile => ?_⟩
      obtain ⟨x, hx, hxdata, hpath⟩ := hfile.entry
      exact (List.pairwise_append.mp hwf.distinct).2.2 x hx e List.mem_cons_self hxdata hdata hpath.symm
    rw [hparents, Exec.ret_bind, ← TarEntry.isDir, ← TarEntry.isFile, ← TarEntry.isLink]
    have hself : (c.resolve path).head? = some slash := by
      rw [hresolve]
      exact dirPath_head _
    by_cases hdir : e.isDir = true
    · have hp : DirPath (done ++ e :: back) e.path := ⟨e, hmem, e.names, List.prefix_refl _, fun _ => hdir, rfl⟩
      have hdata : e.holdsData = false := by
        cases hdata : e.holdsData with
        | false => rfl
        | true => exact absurd hp (hun.files e hmem hdata)
      obtain ⟨v', ret, hmkdir, hv'⟩ := hfilled.mkdir hself (by rw [hresolve]; exact fun sid => hun.synth _ sid hp) (by
        rw [hresolve]
        intro file hfile
        obtain ⟨x, hx, hxdata, hpath⟩ := hfile.entry
        rw [hpath] at hp
        exact hun.files x (List.mem_append_left _ hx) hxdata hp)
      refine ⟨v', ?_, hv'.congr (fun p => ?_) (hfiles hdata)⟩
      · rw [if_pos hdir, hmkdir]
        rfl
      · rw [hresolve]
        constructor
        · intro hp
          rcases dirPath_snoc.mp hp with hp | ⟨pre, hprefix, _, rfl⟩
          · exact .inl (hold p hp)
          · by_cases hlast : pre = e.names
            · exact .inr (congrArg dirPath hlast)
            · exact .inl (hpre pre hprefix hlast)
        · rintro (hp | rfl)
          · exact hnew p hp
          · exact dirPath_snoc.mpr (.inr ⟨e.names, List.prefix_refl _, fun _ => hdir, rfl⟩)
    · have hnodir : e.isDir = false := eq_false_of_ne_true hdir
      have hroot : c.resolve path ≠ [slash] := hresolve ▸ hentry.path_ne_root (hentry.names_ne hnodir)
      rw [if_neg hdir]
      by_cases hfile : e.isFile = true
      · have hdata : e.holdsData = true := TarEntry.holdsData_iff.mpr (.inl hfile)
        have hout := hwf.outside e hmem hdata
        have hlookup := hout.lookup hentry.proper c.pids
        obtain ⟨hd, hf⟩ := hclash hdata
        rw [← hresolve] at hlookup hd hf
        obtain ⟨v', hload, hv'⟩ := hfilled.fileLoaded hdec hfile (hmax hfile) hroot hlookup
          (by rw [hresolve]; exact hout.2.2) hd hf
        refine ⟨v', ?_, hv'.congr (hdirs hnodir) fun p file => ?_⟩
        · rw [if_pos hfile]
          exact hload
        · rw [filePath_snoc hwf, hresolve]
          simp only [hfile, (TarEntry.isFile_apart hfile).2, true_and, Bool.false_eq_true, false_and, or_false]
      · rw [if_neg hfile]
        by_cases hlink : e.isLink = true
        · have hdata : e.holdsData = true := TarEntry.holdsData_iff.mpr (.inr hlink)
          have hlookup := (hwf.outside e hmem hdata).lookup hentry.proper c.pids
          obtain ⟨hd, hf⟩ := hclash hdata
          rw [← hresolve] at hlookup hd hf
          obtain ⟨t, ht, htfile, hspelled⟩ := hwf.targets done e back rfl hlink
          have htmem : t ∈ done ++ e :: back := List.mem_append_left _ ht
          have htentry := hwf.entries t htmem
          have htarget : targetPath (memCStr mem (addr + tarLinkname)) = t.path := by
            rw [hdec.linkname hlink, targetPath_eq (hentry.link_fits hlink), hspelled]
          have hheld : FilePath done t.path t.data := ⟨t, ht, rfl, .inl ⟨htfile, rfl⟩⟩
          obtain ⟨v', hload, hv'⟩ := hfilled.linkLoaded hheld (htentry.resolve c)
            ((hwf.outside t htmem (TarEntry.holdsData_iff.mpr (.inl htfile))).lookup htentry.proper c.pids) hself hroot
            hlookup hd hf
          refine ⟨v', ?_, hv'.congr (hdirs hnodir) fun p file => ?_⟩
          · rw [if_pos hlink, htarget]
            exact hload
          · rw [filePath_snoc hwf, hresolve]
            refine or_congr_right (and_congr_right fun _ => ⟨?_, fun hdata => .inr ⟨hlink, t, ht, htfile, hspelled, hdata⟩⟩)
            rintro (⟨hno, _⟩ | ⟨_, f, hf, hffile, hfspelled, rfl⟩)
            · exact absurd hno hfile
            · rw [hwf.same_path (List.mem_append_left _ hf) htmem (TarEntry.holdsData_iff.mpr (.inl hffile))
                (TarEntry.holdsData_iff.mpr (.inl htfile)) (hfspelled.symm.trans hspelled)]
        · rw [if_neg hlink]
          refine ⟨v₁, rfl, hfilled.congr (hdirs hnodir) (hfiles ?_)⟩
          rw [TarEntry.holdsData, eq_false_of_ne_true hfile, eq_false_of_ne_true hlink]
          rfl

/-! ## The archive -/

/-- The loop adds the entries that are left, and returns. -/
theorem Filled.loop {es : List TarEntry} (h : Filled c.pids v (DirPath done) (FilePath done))
    (hwf : WellFormedArchive (done ++ es)) (hun : Unmixed c.pids (done ++ es)) {mem : Nat → UInt8} {stop addr : Nat}
    (hstop : stop < 4294967296) (harch : ArchiveAt mem stop addr es)
    (hmax : ∀ e ∈ es, e.isFile = true → e.data.length ≤ 8388608) {fuel : Nat} (hfuel : es.length < fuel) :
    ∃ v', loadLoop mem c stop fuel v addr = .ret v' ∧ Filled c.pids v' (DirPath (done ++ es)) (FilePath (done ++ es)) := by
  induction es generalizing done v addr fuel with
  | nil =>
    obtain ⟨fuel, rfl⟩ := Nat.exists_eq_succ_of_ne_zero (Nat.ne_of_gt hfuel)
    refine ⟨v, ?_, (List.append_nil done).symm ▸ h⟩
    rw [loadLoop, harch.end hstop, if_neg (by decide)]
  | cons e es ih =>
    obtain ⟨fuel, rfl⟩ := Nat.exists_eq_succ_of_ne_zero (Nat.ne_of_gt (Nat.zero_lt_of_lt hfuel))
    obtain ⟨hheader, hroom, hrest⟩ := harch
    have hnext := hrest.room
    have hdec := hheader.decoded (hwf.entries e (List.mem_append_right _ List.mem_cons_self)) hroom hstop (by omega)
    obtain ⟨w, hentry, hw⟩ := h.entry hwf hun hdec (hmax e List.mem_cons_self)
    have hassoc : done ++ e :: es = done ++ [e] ++ es := List.append_cons done e es
    rw [hassoc] at hwf hun ⊢
    obtain ⟨v', hloop, hv'⟩ := ih hw hwf hun hrest (fun x hx => hmax x (List.mem_cons_of_mem _ hx))
      (Nat.lt_of_succ_lt_succ hfuel)
    refine ⟨v', ?_, hv'⟩
    rw [loadLoop, hdec.there, if_pos rfl, hentry, Exec.ret_bind, hdec.next]
    exact hloop

end Entry

/-- Nothing but the root is there to begin with. -/
theorem filled_empty {mem : Oracle} (hblocks : ∀ i, mem.outcome i = .block) (fb : Option Buf) (pids : List Nat) :
    Filled pids (emptyVfs mem fb) (DirPath []) (FilePath []) := by
  have hboot : VfsBoot (emptyVfs mem fb) := ⟨mem, fb, rfl⟩
  have hnone : ∀ i, (emptyVfs mem fb).mem.outcome i ≠ .null := by
    intro i hnull
    rw [show (emptyVfs mem fb).mem.outcome i = .block from hblocks i] at hnull
    cases hnull
  refine ⟨⟨.of_boot hboot, .of_boot ⟨hboot, hnone⟩, ⟨.nil, List.not_mem_nil⟩⟩, hblocks, ?_, ?_, fun a n hn => .inl ?_⟩
  · rintro p ⟨e, he, _⟩
    cases he
  · rintro p file ⟨e, he, _⟩
    cases he
  · by_contra ha
    simp only [emptyVfs, Function.update_of_ne ha] at hn
    cases hn

theorem Filled.extracted {pids : List Nat} {v : Vfs} {es : List TarEntry} (h : Filled pids v (DirPath es) (FilePath es)) :
    Extracted pids v es := by
  have hfind : ∀ a n, a ∈ v.nodes → v.node a = some n → findNode v n.path = some a := by
    intro a n ha hn
    exact h.sound.unique.find ha (by rw [Vfs.path, hn]; rfl)
  refine ⟨fun p hp => ?_, fun p file hp => ?_, h.only⟩
  · obtain hsynth | rfl | ⟨a, n, ha, hn, rfl, hmode⟩ := h.dir p hp
    · exact .inl hsynth
    · obtain ⟨n, hn, hdir⟩ := h.sound.table.root
      exact .inr ⟨rootAddr, n, rfl, hn, (isDirNode_eq n).trans hdir⟩
    · refine .inr ⟨a, n, hfind a n ha hn, hn, ?_⟩
      rw [isDirNode_eq, Node.dirBit, hmode]
      rfl
  · obtain ⟨a, n, ha, hn, rfl, hrest⟩ := h.file p file hp
    exact ⟨a, n, hfind a n ha hn, hn, hrest⟩

/-- **Extraction is faithful.**  From an empty file system, with memory for
every allocation, the archive that memory holds is extracted: its directories
are there and their ancestors, its files hold exactly their bytes and its
links those of their targets, and there is no other node. -/
theorem initrd_extracts {mem : Nat → UInt8} {c : Caller} {oracle : Oracle} {fb : Option Buf} {start stop : Nat}
    {es : List TarEntry} (hstop : stop < 4294967296) (harch : ArchiveAt mem stop start es) (hwf : WellFormedArchive es)
    (hun : Unmixed c.pids es) (hblocks : ∀ i, oracle.outcome i = .block)
    (hmax : ∀ e ∈ es, e.isFile = true → e.data.length ≤ 8388608) :
    ∃ v, initrdLoad mem c (emptyVfs oracle fb) start stop = .ret v ∧ Extracted c.pids v es := by
  have hroom := harch.room
  have hfuel : es.length < 4294967297 := by omega
  obtain ⟨v, hloop, hv⟩ := (filled_empty hblocks fb c.pids).loop hwf hun hstop harch hmax hfuel
  refine ⟨v, ?_, hv.extracted⟩
  rw [initrdLoad, if_neg (by omega)]
  exact hloop

/-- A header, with zeros where nothing is said. -/
def headerByte (name size : CStr) (type : UInt8) (linkname : CStr) (i : Nat) : UInt8 :=
  if i < 100 then (name[i]?).getD 0
  else if tarSize ≤ i ∧ i < 136 then (size[i - tarSize]?).getD 0
  else if i = tarTypeflag then type
  else if tarLinkname ≤ i ∧ i < 257 then (linkname[i - tarLinkname]?).getD 0
  else 0

/-- A file of two bytes, and a link to it. -/
def fileAndLink : List TarEntry := [⟨str "d/f", 48, [], [104, 105]⟩, ⟨str "./g", 49, str "d/f", []⟩]

/-- Memory that holds them at `0`. -/
def fileAndLinkMemory (i : Nat) : UInt8 :=
  if i < 512 then headerByte (str "d/f") (str "00000000002") 48 [] i
  else if i = 512 then 104
  else if i = 513 then 105
  else if i < 1024 then 0
  else headerByte (str "./g") (str "00000000000") 49 (str "d/f") (i - 1024)

/-- The directories of an archive, as a list. -/
def dirPaths (es : List TarEntry) : List CStr :=
  es.flatMap fun e => (e.names.inits.filter fun pre => pre ≠ e.names ∨ e.isDir = true).map dirPath

theorem dirPath_iff_mem {es : List TarEntry} {p : CStr} : DirPath es p ↔ p ∈ dirPaths es := by
  unfold DirPath dirPaths
  simp only [List.mem_flatMap, List.mem_map, List.mem_filter, List.mem_inits, decide_eq_true_eq, ne_eq]
  refine exists_congr fun e => and_congr_right fun _ => exists_congr fun pre => ?_
  rw [and_assoc, imp_iff_not_or, eq_comm (a := p)]

example : dirPaths fileAndLink = [str "/", str "/d", str "/"] := by decide

instance (e : TarEntry) : Decidable e.WellFormed :=
  decidable_of_iff (e.name ≠ [] ∧ 0 ∉ e.name ∧ e.name.length < 100 ∧ (∀ name ∈ e.names, ProperName name) ∧
      (e.isDir = false → e.name.getLast? ≠ some slash) ∧ (e.isLink = true → 0 ∉ e.linkname) ∧
      (e.isLink = true → e.linkname.length < 100))
    ⟨fun ⟨h₁, h₂, h₃, h₄, h₅, h₆, h₇⟩ => ⟨h₁, h₂, h₃, h₄, h₅, h₆, h₇⟩,
      fun h => ⟨h.name_ne, h.name_text, h.name_fits, h.proper, h.open_end, h.link_text, h.link_fits⟩⟩

instance (e : TarEntry) : Decidable e.Outside := inferInstanceAs (Decidable (_ ∧ _))

instance (mem : Nat → UInt8) (a : Nat) (xs : List UInt8) : Decidable (HoldsAt mem a xs) :=
  inferInstanceAs (Decidable (∀ i < xs.length, xs[i]? = some (mem (a + i))))

theorem octalField_digits (digits : List UInt8) (n : Nat) (hlen : digits.length = 11)
    (hdigits : (digits.all fun b => 48 ≤ b ∧ b ≤ 55) = true) (hvalue : octalFrom 0 digits = n) :
    OctalField (digits ++ [0]) n := by
  refine ⟨digits, [0], rfl, ?_, List.cons_ne_nil _ _, fun b hb => ?_, fun b hb => ?_, hvalue⟩
  · rw [List.length_append, hlen]
    rfl
  · exact of_decide_eq_true (List.all_eq_true.mp hdigits b hb)
  · exact .inl (List.mem_singleton.mp hb)

theorem file_and_link_extracted : ∃ v,
    initrdLoad fileAndLinkMemory rootCaller (emptyVfs (memoryOf 0xAA) none) 0 2048 = .ret v ∧
      IsDirectory [] v (str "/d") ∧ HoldsFile v (str "/d/f") [104, 105] ∧ HoldsFile v (str "/g") [104, 105] := by
  have harch : ArchiveAt fileAndLinkMemory 2048 0 fileAndLink := by
    refine ⟨⟨by decide, ⟨_, ?_, octalField_digits (str "00000000002") _ rfl (by decide) rfl⟩, by decide, by decide,
      by decide, by decide⟩, by decide, ⟨by decide, ⟨_, ?_, octalField_digits (str "00000000000") _ rfl (by decide) rfl⟩,
      by decide, by decide, by decide, by decide⟩, by decide, by decide, by decide⟩
    · decide
    · decide
  have hwf : WellFormedArchive fileAndLink := by
    refine ⟨by decide, by decide, by decide, ?_⟩
    rintro (_ | ⟨x, _ | ⟨y, front⟩⟩) e back hsplit hlink
    · obtain ⟨rfl, _⟩ := List.cons.inj hsplit
      exact absurd hlink (by decide)
    · obtain ⟨rfl, _⟩ := List.cons.inj hsplit
      obtain ⟨rfl, _⟩ := List.cons.inj (List.cons.inj hsplit).2
      exact ⟨_, List.mem_singleton_self _, by decide, by decide⟩
    · have hlen := congrArg List.length hsplit
      simp [fileAndLink] at hlen
  have hun : Unmixed [] fileAndLink := by
    have hfiles : ∀ e ∈ fileAndLink, e.holdsData = true → e.path ∉ dirPaths fileAndLink := by decide
    have hsynth : ∀ p ∈ dirPaths fileAndLink, synthLookup [] p = none := by decide
    refine ⟨fun e he hdata hp => hfiles e he hdata (dirPath_iff_mem.mp hp), fun p sid hp hsid => ?_⟩
    rw [hsynth p (dirPath_iff_mem.mp hp)] at hsid
    cases hsid
  obtain ⟨v, hret, hext⟩ := @initrd_extracts fileAndLinkMemory rootCaller (memoryOf 0xAA) none 0 2048 fileAndLink
    (by decide) harch hwf hun (fun _ => rfl) (by decide)
  refine ⟨v, hret, hext.dirs _ (dirPath_iff_mem.mpr (by decide)), hext.files _ _ ?_, hext.files _ _ ?_⟩
  · exact ⟨fileAndLink[0], by decide, by decide, .inl ⟨by decide, rfl⟩⟩
  · exact ⟨fileAndLink[1], by decide, by decide, .inr ⟨by decide, fileAndLink[0], by decide, by decide, by decide, rfl⟩⟩

/-- A directory, and a file of one byte at the same path. -/
def directoryAndFile : List TarEntry := [⟨str "a/", 53, [], []⟩, ⟨str "a", 48, [], [1]⟩]

def directoryAndFileMemory (i : Nat) : UInt8 :=
  if i < 512 then headerByte (str "a/") (str "00000000000") 53 [] i
  else if i < 1024 then headerByte (str "a") (str "00000000001") 48 [] (i - 512)
  else if i = 1024 then 1 else 0

set_option maxRecDepth 4000 in
/-- The file is not extracted. -/
theorem file_lost_to_directory : ¬∀ mem c oracle fb start stop es, stop < 4294967296 → ArchiveAt mem stop start es →
    WellFormedArchive es → (∀ i, oracle.outcome i = .block) →
    (∀ e ∈ es, e.isFile = true → e.data.length ≤ 8388608) →
    ∃ v, initrdLoad mem c (emptyVfs oracle fb) start stop = .ret v ∧ Extracted c.pids v es := by
  intro hall
  have harch : ArchiveAt directoryAndFileMemory 2048 0 directoryAndFile := by
    refine ⟨⟨by decide, ⟨_, ?_, octalField_digits (str "00000000000") _ rfl (by decide) rfl⟩, by decide, by decide,
      by decide, by decide⟩, by decide, ⟨by decide, ⟨_, ?_, octalField_digits (str "00000000001") _ rfl (by decide) rfl⟩,
      by decide, by decide, by decide, by decide⟩, by decide, by decide, by decide⟩
    · decide
    · decide
  have hwf : WellFormedArchive directoryAndFile := by
    refine ⟨by decide, by decide, by decide, ?_⟩
    intro front e back hsplit hlink
    have hmem : e ∈ directoryAndFile := hsplit ▸ List.mem_append_right _ List.mem_cons_self
    have hno : ∀ e ∈ directoryAndFile, e.isLink = false := by decide
    rw [hno e hmem] at hlink
    cases hlink
  obtain ⟨v, hret, hext⟩ := hall _ rootCaller (memoryOf 0) none 0 2048 _ (by decide) harch hwf (fun _ => rfl) (by decide)
  have hrun : ∃ w, initrdLoad directoryAndFileMemory rootCaller (emptyVfs (memoryOf 0) none) 0 2048 = .ret w ∧
      findNode w (str "/a") = some 1 ∧ (w.node 1).map (fun n => n.mode) = some sIfdir := ⟨_, rfl, rfl, rfl⟩
  obtain ⟨w, hw, hfind, hmode⟩ := hrun
  obtain rfl : v = w := Exec.ret.inj (hret.symm.trans hw)
  obtain ⟨a, n, ha, hn, hreg, _⟩ := hext.files (str "/a") [1]
    ⟨directoryAndFile[1], by decide, by decide, .inl ⟨by decide, rfl⟩⟩
  obtain rfl : a = 1 := Option.some.inj (ha.symm.trans hfind)
  rw [hn, Option.map_some, hreg] at hmode
  exact absurd (Option.some.inj hmode) (by decide)

/-- A directory entry with the path of a generated file. -/
def generatedDirectory : List TarEntry := [⟨str "proc/meminfo/", 53, [], []⟩]

def generatedDirectoryMemory (i : Nat) : UInt8 :=
  if i < 512 then headerByte (str "proc/meminfo/") (str "00000000000") 53 [] i else 0

set_option maxRecDepth 4000 in
/-- No node is made, and what is there is no directory. -/
theorem directory_lost_to_generated_file : ¬∀ mem c oracle fb start stop es, stop < 4294967296 →
    ArchiveAt mem stop start es → WellFormedArchive es → (∀ e ∈ es, e.holdsData = true → ¬DirPath es e.path) →
    (∀ i, oracle.outcome i = .block) → (∀ e ∈ es, e.isFile = true → e.data.length ≤ 8388608) →
    ∃ v, initrdLoad mem c (emptyVfs oracle fb) start stop = .ret v ∧ Extracted c.pids v es := by
  intro hall
  have harch : ArchiveAt generatedDirectoryMemory 1024 0 generatedDirectory := by
    refine ⟨⟨by decide, ⟨_, ?_, octalField_digits (str "00000000000") _ rfl (by decide) rfl⟩, by decide, by decide,
      by decide, by decide⟩, by decide, by decide, by decide⟩
    decide
  have hdata : ∀ e ∈ generatedDirectory, e.holdsData = false := by decide
  have hlinks : ∀ e ∈ generatedDirectory, e.isLink = false := by decide
  have hwf : WellFormedArchive generatedDirectory := by
    refine ⟨by decide, by decide, by decide, fun front e back hsplit hlink => ?_⟩
    have hmem : e ∈ generatedDirectory := hsplit ▸ List.mem_append_right _ List.mem_cons_self
    rw [hlinks e hmem] at hlink
    cases hlink
  obtain ⟨v, hret, hext⟩ := hall _ rootCaller (memoryOf 0) none 0 1024 _ (by decide) harch hwf
    (fun e he h => by rw [hdata e he] at h; cases h) (fun _ => rfl) (by decide)
  have hrun : ∃ w, initrdLoad generatedDirectoryMemory rootCaller (emptyVfs (memoryOf 0) none) 0 1024 = .ret w ∧
      findNode w (str "/proc/meminfo") = none := ⟨_, rfl, rfl⟩
  obtain ⟨w, hw, hfind⟩ := hrun
  obtain rfl : v = w := Exec.ret.inj (hret.symm.trans hw)
  obtain ⟨sid, hsid, hdir⟩ | ⟨a, n, ha, -⟩ := hext.dirs (str "/proc/meminfo") (dirPath_iff_mem.mpr (by decide))
  · have hlookup : synthLookup rootCaller.pids (str "/proc/meminfo") = some (.proFile 0) := by decide
    obtain rfl := Option.some.inj (hsid.symm.trans hlookup)
    exact absurd hdir (by decide)
  · rw [hfind] at ha
    cases ha

end LiteBSD
