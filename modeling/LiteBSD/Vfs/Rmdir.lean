/-
# `LiteBSD.Vfs.Rmdir` — `vfs_rmdir` removes an empty directory and nothing else

`vfs_rmdir` looks for a node whose path starts with the bytes of the resolved
path and goes on with a slash, and leaves the rest to `vfs_unlink`, which
resolves the path once more.  With paths in normal form the first is the
question whether the names of one path begin the names of the other
(`isBelow_names`), so `/ab` is not below `/a`.

`rmdir_iff_empty` is the law.  It needs that a directory shares its data with
nobody: `vfs_link` refuses directories, and `UnsharedDirs.of_reach` keeps that
over every run.
-/
import LiteBSD.Vfs.Reference
import LiteBSD.Vfs.Rename
import LiteBSD.Vfs.Growth

namespace LiteBSD

open Lib

/-! ## Below a directory -/

/-- The names of `path` go on behind those of `dir`. -/
def StrictlyBelow (dir path : CStr) : Prop :=
  ∃ names, names ≠ [] ∧ components path = components dir ++ names

/-- Every path on the list is in normal form. -/
def NormalPaths (v : Vfs) : Prop := ∀ a ∈ v.nodes, ∀ p, v.path a = some p → NormalPath p

section Below

variable {dir path : CStr}

theorem normalPath_ext {p q : CStr} (hp : NormalPath p) (hq : NormalPath q)
    (h : components p = components q) : p = q := by
  rw [hp.components.1, hq.components.1, h]

/-- The path of a directory that is not the root, as its names. -/
theorem normalPath_pathOf (h : NormalPath dir) (hroot : dir ≠ [slash]) :
    dir = pathOf (components dir) ∧ components dir ≠ [] := by
  have hne : components dir ≠ [] := by
    intro hnil
    have he := h.components.1
    rw [hnil] at he
    exact hroot he
  have he := h.components.1
  rw [dirPath, if_neg hne] at he
  exact ⟨he, hne⟩

/-- The prefix test compares names. -/
theorem isBelow_names (hd : NormalPath dir) (hroot : dir ≠ [slash]) (hp : NormalPath path) :
    isBelow dir path = true ↔ StrictlyBelow dir path := by
  constructor
  · intro h
    obtain ⟨rest, hsplit⟩ : ∃ rest, path = dir ++ slash :: rest := by
      have hslash := (isBelow_iff.mp h).2
      rw [isBelow_split h, List.getElem?_append_right (Nat.le_refl _), Nat.sub_self] at hslash
      obtain ⟨b, rest, hcons⟩ := List.exists_cons_of_ne_nil (isBelow_rest h)
      rw [hcons] at hslash
      cases hslash
      exact ⟨rest, hcons ▸ isBelow_split h⟩
    refine ⟨components rest, ?_, by rw [hsplit, components_append]⟩
    intro hnil
    have hsame : path = dir := normalPath_ext hp hd (by rw [hsplit, components_append, hnil, List.append_nil])
    rw [hsame, not_isBelow_self] at h
    cases h
  · rintro ⟨names, hne, he⟩
    obtain ⟨hdir, hdne⟩ := normalPath_pathOf hd hroot
    have hpath : path = pathOf (components dir) ++ pathOf names := by
      have hwhole := hp.components.1
      rwa [he, dirPath, if_neg (List.append_ne_nil_of_left_ne_nil hdne _), pathOf_append] at hwhole
    rw [← hdir] at hpath
    obtain ⟨name, rest, rfl⟩ := List.exists_cons_of_ne_nil hne
    rw [hpath, isBelow_append]
    rfl

end Below

/-! ## Directories share no data -/

/-- No directory has a counter. -/
def UnsharedDirs (v : Vfs) : Prop := ∀ a n, v.node a = some n → n.dirBit = true → n.dataRefs = none

namespace UnsharedDirs

variable {v v' : Vfs} {a : Nat} {n : Node}

theorem of_node (h : UnsharedDirs v) (hnode : v'.node = v.node) : UnsharedDirs v' :=
  fun a n hn => h a n (hnode ▸ hn)

/-- A store that leaves the invariant to the new node. -/
theorem update (h : UnsharedDirs v) (hn : n.dirBit = true → n.dataRefs = none)
    (hnode : v'.node = Function.update v.node a (some n)) : UnsharedDirs v' := by
  intro x m hm
  rw [hnode] at hm
  by_cases hx : x = a
  · rw [hx, Function.update_self, Option.some.injEq] at hm
    exact hm ▸ hn
  · rw [Function.update_of_ne hx] at hm
    exact h x m hm

theorem setNode (h : UnsharedDirs v) (hn : n.dirBit = true → n.dataRefs = none) : UnsharedDirs (v.setNode a n) :=
  h.update hn rfl

theorem drop (h : UnsharedDirs v) (hnode : v'.node = Function.update v.node a none) : UnsharedDirs v' := by
  intro x m hm
  rw [hnode] at hm
  by_cases hx : x = a
  · rw [hx, Function.update_self] at hm
    cases hm
  · rw [Function.update_of_ne hx] at hm
    exact h x m hm

/-- Work on one node that is no directory. -/
theorem onlyAt (h : UnsharedDirs v) (hw : OnlyAt a v v') (hsame : SameNames v v')
    (hfile : ∀ n, v.node a = some n → n.dirBit = true → v' = v) : UnsharedDirs v' := by
  intro x m hm hdir
  by_cases hx : x = a
  · subst hx
    have hl := congrFun hsame.label x
    rw [Vfs.label, Vfs.label, hm] at hl
    obtain ⟨n, hn, hlabel⟩ := Option.map_eq_some_iff.mp hl.symm
    have hbit : n.dirBit = m.dirBit := congrArg (fun l : Label => (l.mode &&& sIfdir ≠ 0 : Bool)) hlabel
    rw [hfile n hn (hbit.trans hdir)] at hm
    exact h x m hm hdir
  · rw [hw.node x hx] at hm
    exact h x m hm hdir

/-- A second name has the mode of the first, which is no directory's. -/
theorem linked {target k : Nat} {t : Node} (h : UnsharedDirs v) (hl : NewLink v v' a target k n t)
    (hmode : n.mode = t.mode) : UnsharedDirs v' := by
  have hfile : ∀ m : Node, m.mode = t.mode → m.dirBit = true → m.dataRefs = none := by
    intro m hm hbit
    rw [Node.dirBit, hm] at hbit
    cases hbit.symm.trans hl.file
  have htarget := h.setNode (a := target) (n := { t with dataRefs := some k }) (hfile _ rfl)
  exact htarget.update (hfile n hmode) hl.node

theorem step {call : VfsCall} (h : UnsharedDirs v) (hfresh : ∀ a, v.nextObj ≤ a → v.node a = none)
    (hs : vfsCall v call = .ret v') : UnsharedDirs v' := by
  cases call_effect hfresh hs with
  | idle hu => exact h.of_node hu.node
  | opened hn hl hv =>
      have hkeep := h _ _ hn
      rw [hv]
      exact h.setNode hkeep
  | made hm hp => exact h.update (fun _ => hm.unshared) hm.node
  | linked hnew hp =>
      obtain ⟨⟨w, r⟩, hw, hs⟩ := Exec.bind_eq_ret.mp hs
      cases hs
      rcases vfsLink_effect hfresh hw with hu | ⟨_, _, _, _, _, hl, -, hmode⟩
      · exact h.of_node hu.node
      · exact h.linked hl hmode
  | wrote hw =>
      refine h.onlyAt (.of_vfsWrite hw) (.of_vfsWrite hw) fun n hn hdir => ?_
      rw [vfsWrite, Vfs.load_live hn, Exec.ret_bind, if_pos hdir] at hw
      cases hw
      rfl
  | truncated ht =>
      refine h.onlyAt (.of_vfsTruncate ht) (.of_vfsTruncate ht) fun n hn hdir => ?_
      rw [vfsTruncate, Vfs.load_live hn, Exec.ret_bind, if_pos (.inl hdir)] at ht
      cases ht
      rfl
  | closed hc =>
      obtain ⟨n, hn, ⟨k, rfl⟩ | ⟨_, _, _, _, hnode, -⟩⟩ := vfsClose_ret hc
      · have hkeep := h _ _ hn
        exact h.setNode hkeep
      · exact h.drop hnode
  | unlinked _ _ hu =>
      obtain ⟨n, hu⟩ := unlinkNode_ret hu
      exact h.drop hu.node
  | renamed _ hr =>
      obtain ⟨n, _, rfl⟩ := renameNode_ret hr
      intro x m hm
      obtain ⟨m', hm', rfl⟩ := Option.map_eq_some_iff.mp hm
      exact h x m' hm'

theorem of_reach (h : vfsSystem.Reach v) : UnsharedDirs v := by
  suffices hboth : NodeTable v ∧ UnsharedDirs v from hboth.2
  refine System.ReachVia.invariant (I := fun v => NodeTable v ∧ UnsharedDirs v) (fun v hb => ⟨NodeTable.of_boot hb, ?_⟩)
    (fun v call v' hi _ hs => ⟨hi.1.step hs, hi.2.step hi.1.fresh hs⟩) h
  obtain ⟨mem, fb, rfl⟩ := hb
  intro a n hn _
  by_cases ha : a = rootAddr
  · subst ha
    obtain rfl : rootNode = n := Option.some.inj hn
    rfl
  · exact absurd hn (by simp [emptyVfs, ha])

end UnsharedDirs

/-! ## The removal -/

/-- At `a` is a real directory with this path, not the root, and nothing is
below it. -/
structure EmptyDir (v : Vfs) (c : Caller) (resolved : CStr) (a : Nat) : Prop where
  notRoot : resolved ≠ [slash]
  real : synthLookup c.pids resolved = none
  listed : a ∈ v.nodes
  path : v.path a = some resolved
  dir : ∃ n, v.node a = some n ∧ isDirNode n = true
  empty : ∀ b ∈ v.nodes, ∀ p, v.path b = some p → ¬StrictlyBelow resolved p

section Removal

variable {v : Vfs} {c : Caller} {path resolved : CStr} {a : Nat} {n : Node}

/-- The scan over all nodes finds what is strictly below. -/
theorem hasChild_iff (hnorm : NormalPaths v) (hr : NormalPath resolved) (hroot : resolved ≠ [slash]) :
    v.hasChild resolved = true ↔ ∃ b ∈ v.nodes, ∃ p, v.path b = some p ∧ StrictlyBelow resolved p := by
  have hpath : ∀ b, ((v.node b).any fun n => isBelow resolved n.path) = true ↔
      ∃ p, v.path b = some p ∧ isBelow resolved p = true := by
    intro b
    unfold Vfs.path
    cases v.node b <;> simp
  simp only [Vfs.hasChild, List.any_eq_true, hpath]
  constructor
  · rintro ⟨b, hb, p, hp, h⟩
    exact ⟨b, hb, p, hp, (isBelow_names hr hroot (hnorm b hb p hp)).mp h⟩
  · rintro ⟨b, hb, p, hp, h⟩
    exact ⟨b, hb, p, hp, (isBelow_names hr hroot (hnorm b hb p hp)).mpr h⟩

/-- The node itself goes, and nothing else of the list. -/
theorem unlinkNode_dir (hn : v.node a = some n) (hrefs : n.dataRefs = none) :
    ∃ v', unlinkNode v a = .ret v' ∧ v'.nodes = v.nodes.erase a ∧ v'.node = Function.update v.node a none := by
  have hret : unlinkNode v a = .ret ((({ v with nodes := v.nodes.erase a }).freeBuf n.data).freeNode a) := by
    have hload : ({ v with nodes := v.nodes.erase a } : Vfs).load a = .ret n := Vfs.load_live hn
    rw [unlinkNode, Vfs.load_live hn, Exec.ret_bind]
    dsimp only
    rw [dataRelease, hload, Exec.ret_bind]
    dsimp only
    rw [hrefs]
    dsimp only
    rw [Exec.ret_bind, if_pos rfl]
  exact ⟨_, hret, by simp [Vfs.freeNode], by simp [Vfs.freeNode]⟩

/-- Where `vfs_rmdir` gets to `vfs_unlink`. -/
theorem vfsRmdir_found (hroot : c.resolve path ≠ [slash]) (hfind : findNode v (c.resolve path) = some a)
    (hn : v.node a = some n) :
    vfsRmdir v c path = if isDirNode n = false ∨ v.hasChild (c.resolve path) = true then .ret (v, -1)
      else vfsUnlink v c path := by
  rw [vfsRmdir, if_neg hroot, hfind]
  dsimp only
  rw [Vfs.load_live hn, Exec.ret_bind]
  have hkind : (n.dirBit = false ∨ isSymlinkNode n = true) ↔ isDirNode n = false := by
    rw [isDirNode, Bool.and_eq_false_iff, Bool.not_eq_false']
  by_cases hdir : isDirNode n = false
  · rw [if_pos (by simpa using hkind.mpr hdir), if_pos (.inl hdir)]
  · rw [if_neg (by simpa using fun h => hdir (hkind.mp h))]
    by_cases hchild : v.hasChild (c.resolve path) = true
    · rw [if_pos hchild, if_pos (.inr hchild)]
    · rw [if_neg hchild, if_neg (not_or.mpr ⟨hdir, hchild⟩)]

/-- What `vfs_rmdir` does: it removes an empty directory, or it leaves
everything as it was. -/
theorem vfsRmdir_cases (ht : NodeTable v) (hd : UnsharedDirs v) (hnorm : NormalPaths v) :
    (∃ a v', EmptyDir v c (c.resolve path) a ∧ vfsRmdir v c path = .ret (v', 0) ∧
      v'.nodes = v.nodes.erase a ∧ v'.node = Function.update v.node a none) ∨
    (∀ a, findNode v (c.resolve path) = some a → ¬EmptyDir v c (c.resolve path) a) ∧
      vfsRmdir v c path = .ret (v, -1) := by
  by_cases hroot : c.resolve path = [slash]
  · refine .inr ⟨fun a _ h => h.notRoot hroot, ?_⟩
    rw [vfsRmdir, if_pos hroot]
  cases hfind : findNode v (c.resolve path) with
  | none =>
      refine .inr ⟨fun a ha => ?_, ?_⟩
      · cases ha
      · rw [vfsRmdir, if_neg hroot, hfind]
  | some a =>
      obtain ⟨hlisted, hpath⟩ := findNode_path hfind hroot
      obtain ⟨n, hn, -⟩ := ht.listed a hlisted
      have hchild := hasChild_iff hnorm (hnorm a hlisted _ hpath) hroot
      rw [vfsRmdir_found hroot hfind hn]
      split
      · rename_i hno
        refine .inr ⟨fun b hb h => ?_, rfl⟩
        cases hb
        obtain ⟨m, hm, hdir⟩ := h.dir
        obtain rfl : n = m := Option.some.inj (hn.symm.trans hm)
        rcases hno with hfile | hbelow
        · rw [hfile] at hdir
          cases hdir
        · obtain ⟨x, hx, p, hp, hstrict⟩ := hchild.mp hbelow
          exact h.empty x hx p hp hstrict
      · rename_i hyes
        obtain ⟨hdir, hbelow⟩ := not_or.mp hyes
        rw [Bool.not_eq_false] at hdir
        cases hs : synthLookup c.pids (c.resolve path) with
        | some sid =>
            refine .inr ⟨fun b _ h => ?_, ?_⟩
            · cases h.real.symm.trans hs
            · rw [vfsUnlink, if_pos (by rw [hs]; rfl)]
        | none =>
            have hbit : n.dirBit = true := isDirNode_eq n ▸ hdir
            obtain ⟨v', hv', hnodes, hnode⟩ := unlinkNode_dir hn (hd a n hn hbit)
            have hempty : EmptyDir v c (c.resolve path) a :=
              ⟨hroot, hs, hlisted, hpath, ⟨n, hn, hdir⟩, fun b hb p hp h => hbelow (hchild.mpr ⟨b, hb, p, hp, h⟩)⟩
            refine .inl ⟨a, v', hempty, ?_, hnodes, hnode⟩
            rw [findNode, if_neg hroot] at hfind
            rw [vfsUnlink, if_neg (by rw [hs]; exact Bool.false_ne_true), if_neg hroot, hfind]
            dsimp only
            rw [hv', Exec.ret_bind]

/-- `vfs_rmdir` returns 0 exactly for an empty real directory, which it takes
off the list; else it changes nothing. -/
theorem rmdir_iff_empty (ht : NodeTable v) (hd : UnsharedDirs v) (hu : UniquePaths v) (hnorm : NormalPaths v) :
    ∃ v' ret, vfsRmdir v c path = .ret (v', ret) ∧
      (ret = 0 ↔ ∃ a, EmptyDir v c (c.resolve path) a) ∧
      (ret = 0 → ∃ a, EmptyDir v c (c.resolve path) a ∧ v'.nodes = v.nodes.erase a ∧
        ∀ x, x ≠ a → v'.node x = v.node x) ∧
      (ret ≠ 0 → ret = -1 ∧ v' = v) := by
  rcases @vfsRmdir_cases v c path ht hd hnorm with ⟨a, v', hempty, hret, hnodes, hnode⟩ | ⟨hno, hret⟩
  · refine ⟨v', 0, hret, ⟨fun _ => ⟨a, hempty⟩, fun _ => rfl⟩, fun _ => ⟨a, hempty, hnodes, fun x hx => ?_⟩,
      fun h => absurd rfl h⟩
    rw [hnode, Function.update_of_ne hx]
  · refine ⟨v, -1, hret, ⟨fun h => absurd h (by decide), ?_⟩, fun h => absurd h (by decide), fun _ => ⟨rfl, rfl⟩⟩
    rintro ⟨a, hempty⟩
    exact absurd hempty (hno a (hu.find hempty.listed hempty.path))

/-- A directory with a file in it, and an empty one beside it whose name
starts with the name of the first. -/
def emptySibling : List VfsCall :=
  [.mkdir rootCaller (str "/d"), .openPath rootCaller (str "/d/x") 0x40, .mkdir rootCaller (str "/de")]

theorem emptySibling_normal : ∃ v, vfsCalls (emptyVfs (memoryOf 0) none) emptySibling = .ret v ∧ NormalPaths v := by
  have hv : ∃ v, vfsCalls (emptyVfs (memoryOf 0) none) emptySibling = .ret v ∧ v.nodes = [3, 2, 1] ∧
      v.path 1 = some (str "/d") ∧ v.path 2 = some (str "/d/x") ∧ v.path 3 = some (str "/de") :=
    ⟨_, rfl, rfl, rfl, rfl, rfl⟩
  obtain ⟨v, hv, hnodes, h₁, h₂, h₃⟩ := hv
  refine ⟨v, hv, fun a ha p hp => ?_⟩
  rw [hnodes] at ha
  simp only [List.mem_cons, List.not_mem_nil, or_false] at ha
  rcases ha with rfl | rfl | rfl
  · cases h₃.symm.trans hp
    exact ⟨[str "de"], by decide, rfl⟩
  · cases h₂.symm.trans hp
    exact ⟨[str "d", str "x"], by decide, rfl⟩
  · cases h₁.symm.trans hp
    exact ⟨[str "d"], by decide, rfl⟩

theorem empty_sibling_removed : ∃ v v', vfsCalls (emptyVfs (memoryOf 0) none) emptySibling = .ret v ∧
    vfsRmdir v rootCaller (str "/de") = .ret (v', 0) ∧ v'.nodes = [2, 1] := by
  have hv : ∃ v, vfsCalls (emptyVfs (memoryOf 0) none) emptySibling = .ret v ∧ UniquePaths v ∧
      v.nodes = [3, 2, 1] ∧ v.path 3 = some (str "/de") ∧ (∃ n, v.node 3 = some n ∧ isDirNode n = true) ∧
      v.hasChild (str "/de") = false :=
    ⟨_, rfl, ⟨by decide, by decide⟩, rfl, rfl, ⟨_, rfl, by decide⟩, by decide⟩
  obtain ⟨v, hv, hu, hnodes, h₃, hdir, hchild⟩ := hv
  have hreach := reach_vfsCalls (S := vfsSystem) id (.init ⟨memoryOf 0, none, rfl⟩) emptySibling hv
  have hnormal : NormalPath (str "/de") := ⟨[str "de"], by decide, rfl⟩
  obtain ⟨w, hw, hnorm⟩ := emptySibling_normal
  obtain rfl : v = w := Exec.ret.inj (hv.symm.trans hw)
  have hempty : EmptyDir v rootCaller (rootCaller.resolve (str "/de")) 3 := by
    refine ⟨by decide, by decide, by rw [hnodes]; decide, h₃, hdir, fun b hb p hp h => ?_⟩
    have hyes := (hasChild_iff hnorm hnormal (by decide)).mpr ⟨b, hb, p, hp, h⟩
    rw [hchild] at hyes
    cases hyes
  obtain ⟨v', ret, hret, hiff, hgone, -⟩ := @rmdir_iff_empty v rootCaller (str "/de") (.of_reach hreach)
    (.of_reach hreach) hu hnorm
  have hzero := hiff.mpr ⟨3, hempty⟩
  obtain ⟨a, ha, hnodes', -⟩ := hgone hzero
  obtain rfl : a = 3 := List.inj_on_of_nodup_map hu.1 ha.listed hempty.listed (ha.path.trans hempty.path.symm)
  rw [hzero] at hret
  exact ⟨v, v', hv, hret, by rw [hnodes', hnodes]; rfl⟩

end Removal

end LiteBSD
