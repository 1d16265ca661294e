/-
# `LiteBSD.Vfs.Rename` — a directory is renamed with all that is below it

`vfs_rename` moves a directory by rewriting paths: that of the directory,
and in one pass over the list that of every node whose path has the old one
as a prefix and a slash behind it.  With room for the new paths and nothing
at or below the new one, that moves the subtree and nothing else:

    the path was        it is
    old ++ s            new ++ s     `s` empty, or with a slash first
    anything else       the same     `old ++ "x"` too

The proof needs no order of the list.  Each path is rewritten from its own
bytes, and `uniquePaths_rename` says that no two of them meet.
-/
import LiteBSD.Vfs.Names

namespace LiteBSD

/-- There is no node at `path`, and none below. -/
structure FreeBelow (v : Vfs) (path : CStr) : Prop where
  absent : findNode v path = none
  below : ∀ x ∈ v.nodes, ∀ p, v.path x = some p → isBelow path p = false

/-- The paths below `old` have room under the name `new`. -/
def RoomBelow (v : Vfs) (old new : CStr) : Prop :=
  ∀ x ∈ v.nodes, ∀ p, v.path x = some p → isBelow old p → new.length + (p.length - old.length) ≤ 255

/-- What `s` is in the path of a node at or below a directory. -/
def IsSuffix (s : CStr) : Prop := s = [] ∨ s.head? = some slash

/-- What is at or below `old` is at or below `new`, and that is all that has
changed. -/
structure SubtreeMoved (v v' : Vfs) (old new : CStr) : Prop where
  moved : ∀ s x, IsSuffix s → findNode v (old ++ s) = some x → findNode v' (new ++ s) = some x
  stayed : ∀ x p, v.path x = some p → x ∉ v.nodes ∨ (∀ s, IsSuffix s → p ≠ old ++ s) → v'.path x = some p
  found : ∀ x p, findNode v p = some x → (∀ s, IsSuffix s → p ≠ old ++ s) → findNode v' p = some x
  siblings : ∀ t x, ¬IsSuffix t → findNode v (old ++ t) = some x → v'.path x = v.path x
  nodes : v'.nodes = v.nodes
  kept : ∀ x, (v'.node x).map (fun n => (n.toBlob, n.mode, n.ino)) = (v.node x).map fun n => (n.toBlob, n.mode, n.ino)
  memory : v'.buf = v.buf ∧ v'.cell = v.cell

section Rename

variable {v v' : Vfs} {a : Nat} {n : Node} {old new p s : CStr}

theorem isBelow_append : isBelow old (old ++ s) = true ↔ s.head? = some slash := by
  rw [isBelow_iff, List.take_left, List.getElem?_append_right (Nat.le_refl _), Nat.sub_self, List.head?_eq_getElem?]
  exact ⟨And.right, fun h => ⟨rfl, h⟩⟩

/-- A path is at or below a directory if it goes on after it as a suffix. -/
theorem suffix_iff : (∃ s, IsSuffix s ∧ p = old ++ s) ↔ p = old ∨ isBelow old p = true := by
  constructor
  · rintro ⟨s, rfl | hs, rfl⟩
    · exact .inl (List.append_nil _)
    · exact .inr (isBelow_append.mpr hs)
  · rintro (rfl | hbelow)
    · exact ⟨[], .inl rfl, (List.append_nil _).symm⟩
    · have hsplit := isBelow_split hbelow
      rw [hsplit] at hbelow
      exact ⟨p.drop old.length, .inr (isBelow_append.mp hbelow), hsplit⟩

/-- A search finds the one node that has the path. -/
theorem UniquePaths.find (hu : UniquePaths v) (ha : a ∈ v.nodes) (hp : v.path a = some p) : findNode v p = some a := by
  have hroot : p ≠ [slash] := by
    rintro rfl
    exact hu.2 (List.mem_map.mpr ⟨a, ha, hp⟩)
  rw [findNode, if_neg hroot]
  cases hfind : v.nodes.find? (v.hasPath p) with
  | none => exact absurd (hasPath_iff.mpr hp) (List.find?_eq_none.mp hfind a ha)
  | some b =>
      have hb := hasPath_iff.mp (List.find?_some hfind)
      rw [List.inj_on_of_nodup_map hu.1 (List.mem_of_find?_eq_some hfind) ha (hb.trans hp.symm)]

/-- With nothing at the new place and room for all paths, the way is clear. -/
theorem MoveClear.of_free (hu : UniquePaths v) (hfree : FreeBelow v new) (hroom : RoomBelow v old new) :
    MoveClear v a old new := by
  intro x hx p hp hbelow
  have hle := hroom x hx p hp hbelow
  have hlt : old.length < p.length := by
    have hrest := List.length_pos_iff.mpr (isBelow_rest hbelow)
    rw [List.length_drop] at hrest
    omega
  refine ⟨by omega, fun y hy q hyx _ hq => ?_⟩
  have hshort : (p.drop old.length).take (255 - new.length) = p.drop old.length :=
    List.take_of_length_le (by rw [List.length_drop]; omega)
  split
  · rename_i hbq
    have hle' := hroom y hy q hq hbq
    have hshort' : (q.drop old.length).take (255 - new.length) = q.drop old.length :=
      List.take_of_length_le (by rw [List.length_drop]; omega)
    rw [hshort, hshort']
    intro heq
    have hpq : p = q := by rw [isBelow_split hbelow, isBelow_split hbq, heq]
    exact hyx (List.inj_on_of_nodup_map hu.1 hy hx (by rw [hp, hq, hpq]))
  · rw [List.take_of_length_le (by rw [List.length_append, List.length_drop]; omega)]
    rintro rfl
    have hslash : (p.drop old.length).head? = some slash := by
      have hb := hbelow
      rw [isBelow_split hbelow] at hb
      exact isBelow_append.mp hb
    exact absurd (isBelow_append.mpr hslash) (ne_true_of_eq_false (hfree.below y hy _ hq))

/-- A path at or below the directory. -/
theorem movedPath_suffix {x : Nat} (hu : UniquePaths v) (ha : a ∈ v.nodes) (hpath : v.path a = some old)
    (hnew : new.length ≤ 255) (hroom : RoomBelow v old new) (hx : x ∈ v.nodes) (hs : IsSuffix s)
    (hp : v.path x = some (old ++ s)) : movedPath v a true old new x (old ++ s) = new ++ s := by
  by_cases hxa : x = a
  · subst hxa
    rw [hpath, Option.some.injEq, List.self_eq_append_right] at hp
    rw [movedPath_self hnew, hp, List.append_nil]
  · have hbelow : isBelow old (old ++ s) = true := by
      rcases hs with rfl | hslash
      · rw [List.append_nil] at hp
        exact absurd (List.inj_on_of_nodup_map hu.1 hx ha (hp.trans hpath.symm)) hxa
      · exact isBelow_append.mpr hslash
    have hle := hroom x hx _ hp hbelow
    rw [List.length_append] at hle
    rw [movedPath_dir hx hxa, if_pos hbelow, rebase_eq hnew, List.drop_left]
    exact List.take_of_length_le (by rw [List.length_append]; omega)

/-- Any other path. -/
theorem movedPath_other {x : Nat} (ha : a ∈ v.nodes) (hpath : v.path a = some old) (hp : v.path x = some p)
    (hother : x ∉ v.nodes ∨ ∀ s, IsSuffix s → p ≠ old ++ s) : movedPath v a true old new x p = p := by
  have hbelow : ¬(x ∈ v.nodes ∧ (p = old ∨ isBelow old p = true)) := by
    rintro ⟨hx, hat⟩
    obtain ⟨s, hs, he⟩ := suffix_iff.mpr hat
    exact hother.elim (fun hoff => hoff hx) fun hno => hno s hs he
  have hxa : x ≠ a := by
    rintro rfl
    rw [hpath, Option.some.injEq] at hp
    exact hbelow ⟨ha, .inl hp.symm⟩
  rw [movedPath, if_neg hxa, if_neg fun h => hbelow ⟨h.2.1, .inr h.2.2⟩]

/-- What the rewriting of the paths comes to, once they are known to be
distinct. -/
theorem SubtreeMoved.of_renamed (hu : UniquePaths v) (hu' : UniquePaths v') (ha : a ∈ v.nodes)
    (hpath : v.path a = some old) (hroot : old ≠ [slash]) (hnil : old ≠ []) (hnew : new.length ≤ 255)
    (hroom : RoomBelow v old new)
    (hv : v' = { v with node := fun x => (v.node x).map fun m => { m with path := movedPath v a true old new x m.path } }) :
    SubtreeMoved v v' old new := by
  have hpaths : ∀ x, v'.path x = (v.path x).map (movedPath v a true old new x) := by
    intro x
    rw [hv]
    simp only [Vfs.path, Option.map_map]
    rfl
  have hnodes : v'.nodes = v.nodes := by rw [hv]
  have hstayed : ∀ x p, v.path x = some p → x ∉ v.nodes ∨ (∀ s, IsSuffix s → p ≠ old ++ s) → v'.path x = some p := by
    intro x p hp hother
    rw [hpaths, hp, Option.map_some, movedPath_other ha hpath hp hother]
  have hfound : ∀ x p, findNode v p = some x → (∀ s, IsSuffix s → p ≠ old ++ s) → findNode v' p = some x := by
    intro x p hp hother
    by_cases hslash : p = [slash]
    · rw [findNode, if_pos hslash] at hp ⊢
      exact hp
    · obtain ⟨hx, hxp⟩ := findNode_path hp hslash
      exact hu'.find (hnodes ▸ hx) (hstayed x p hxp (.inr hother))
  refine ⟨?_, hstayed, hfound, ?_, hnodes, ?_, ?_⟩
  · intro s x hs hx
    have hne : old ++ s ≠ [slash] := by
      intro he
      rcases List.append_eq_singleton_iff.mp he with ⟨hold, _⟩ | ⟨hold, _⟩
      · exact hnil hold
      · exact hroot hold
    obtain ⟨hmem, hp⟩ := findNode_path hx hne
    refine hu'.find (hnodes ▸ hmem) ?_
    rw [hpaths, hp, Option.map_some, movedPath_suffix hu ha hpath hnew hroom hmem hs hp]
  · intro t x ht hx
    have hother : ∀ s, IsSuffix s → old ++ t ≠ old ++ s := by
      intro s hs he
      exact ht (List.append_cancel_left he ▸ hs)
    have hne : old ++ t ≠ [slash] := by
      intro he
      rcases List.append_eq_singleton_iff.mp he with ⟨hold, _⟩ | ⟨hold, _⟩
      · exact hnil hold
      · exact hroot hold
    obtain ⟨_, hp⟩ := findNode_path hx hne
    rw [hp]
    exact hstayed x _ hp (.inr hother)
  · intro x
    rw [hv]
    simp only [Option.map_map]
    rfl
  · rw [hv]
    exact ⟨rfl, rfl⟩

end Rename

/-- Renaming a directory moves what is at and below its path, and nothing
else. -/
theorem directory_rename_moves_subtree {v : Vfs} {c : Caller} {oldpath newpath : CStr} {a : Nat} {n : Node}
    (ht : NodeTable v) (hu : UniquePaths v) (hfind : findNode v (c.resolve oldpath) = some a)
    (hn : v.node a = some n) (hdir : n.dirBit = true)
    (hold : synthLookup c.pids (c.resolve oldpath) = none) (hnew : synthLookup c.pids (c.resolve newpath) = none)
    (hroot : c.resolve oldpath ≠ [slash]) (hroot' : c.resolve newpath ≠ [slash])
    (hfree : FreeBelow v (c.resolve newpath)) (hroom : RoomBelow v (c.resolve oldpath) (c.resolve newpath)) :
    ∃ v', vfsRename v c oldpath newpath = .ret (v', 0) ∧
      SubtreeMoved v v' (c.resolve oldpath) (c.resolve newpath) := by
  obtain ⟨ha, hpath⟩ := findNode_path hfind hroot
  have hlen : (c.resolve newpath).length ≤ 255 := vfsResolvePath_length _ _
  have hne : c.resolve oldpath ≠ c.resolve newpath := by
    intro he
    rw [← he] at hfree
    exact absurd (hfind.symm.trans hfree.absent) nofun
  have hchecks : vfsRename v c oldpath newpath = renameNode v a (c.resolve oldpath) (c.resolve newpath) := by
    unfold vfsRename
    dsimp only
    rw [if_neg (by rw [hold]; exact Bool.false_ne_true), if_neg (by rw [hnew]; exact Bool.false_ne_true),
      if_neg (not_or.mpr ⟨hroot, hroot'⟩), if_neg hne, hfind]
    dsimp only
    rw [if_neg (by rw [hfree.absent]; exact Bool.false_ne_true)]
  have hreturns : ∃ v', renameNode v a (c.resolve oldpath) (c.resolve newpath) = .ret (v', 0) := by
    unfold renameNode
    rw [Vfs.load, hn, Exec.ret_bind]
    dsimp only
    split
    · exact ⟨_, rfl⟩
    · exact ⟨_, rfl⟩
  obtain ⟨v', hv'⟩ := hreturns
  have hret : vfsRename v c oldpath newpath = .ret (v', 0) := hchecks.trans hv'
  have hapart : PathsKeptApart v (.rename c oldpath newpath) := by
    intro b m hb _ _
    exact MoveClear.of_free hu hfree hroom
  have hu' := (uniquePaths_rename ht hu hret).mpr hapart
  obtain ⟨m, hm, he⟩ := renameNode_ret hv'
  rw [hn, Option.some.injEq] at hm
  subst hm
  rw [hdir] at he
  exact ⟨v', hret, .of_renamed hu hu' ha hpath hroot (vfsResolvePath_ne_nil _ _) hlen hroom he⟩

/-- A directory with a file in it, and a file beside it that has the name of
the directory as a prefix. -/
def treeWithSibling : List VfsCall :=
  [.mkdir rootCaller (str "/d"), .openPath rootCaller (str "/d/x") 0x40, .openPath rootCaller (str "/dx") 0x40]

theorem renamed_beside_sibling : ∃ v v', vfsCalls (emptyVfs (memoryOf 0) none) treeWithSibling = .ret v ∧
    vfsRename v rootCaller (str "/d") (str "/e") = .ret (v', 0) ∧ findNode v' (str "/e/x") = some 2 ∧
    v'.path 3 = some (str "/dx") := by
  have hv : ∃ v, vfsCalls (emptyVfs (memoryOf 0) none) treeWithSibling = .ret v ∧
      (∃ n, v.node 1 = some n ∧ n.dirBit = true) ∧ UniquePaths v ∧ findNode v (str "/d") = some 1 ∧
      findNode v (str "/d/x") = some 2 ∧ findNode v (str "/dx") = some 3 ∧ findNode v (str "/e") = none ∧
      (v.nodes.all fun x => (v.path x).all fun p => !isBelow (str "/e") p && decide (2 + (p.length - 2) ≤ 255)) = true ∧
      v.path 3 = some (str "/dx") :=
    ⟨_, rfl, ⟨_, rfl, by decide⟩, ⟨by decide, by decide⟩, by decide, by decide, by decide, by decide, by decide, rfl⟩
  obtain ⟨v, hv, ⟨n, hn, hdir⟩, hu, hd, hx, hsibling, habs, hall, hpath⟩ := hv
  have ht := NodeTable.of_reach (reach_vfsCalls (S := vfsSystem) id (.init ⟨memoryOf 0, none, rfl⟩) treeWithSibling hv)
  have hbounds : ∀ x ∈ v.nodes, ∀ p, v.path x = some p → isBelow (str "/e") p = false ∧ 2 + (p.length - 2) ≤ 255 := by
    intro x hx p hp
    have hone := List.all_eq_true.mp hall x hx
    rw [hp, Option.all_some, Bool.and_eq_true, Bool.not_eq_true', decide_eq_true_eq] at hone
    exact hone
  obtain ⟨v', hv', hmoved⟩ := @directory_rename_moves_subtree v rootCaller (str "/d") (str "/e") 1 n
    ht hu hd hn hdir (by decide) (by decide) (by decide) (by decide)
    ⟨habs, fun x hx p hp => (hbounds x hx p hp).1⟩ fun x hx p hp _ => (hbounds x hx p hp).2
  refine ⟨v, v', hv, hv', hmoved.moved (str "/x") 2 (.inr rfl) hx, ?_⟩
  exact (hmoved.siblings (str "x") 3 (by rintro (h | h) <;> cases h) hsibling).trans hpath

end LiteBSD
