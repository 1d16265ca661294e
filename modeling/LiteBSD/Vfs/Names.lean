/-
# `LiteBSD.Vfs.Names` — no two nodes of the list have one path

Every creation looks for its path first, so that it never makes a second
node under it.  A rename of a DIRECTORY is different: it looks for the new
path of the directory only, and then rewrites the paths of everything below
in place, clipped at 255 bytes, whatever is there already.

`PathsKeptApart` is what a rename has to meet so that no two paths become
equal, in terms of the paths before it.  `paths_unique_iff` is the result: in
any run, the paths stay distinct through every step exactly when every
rename in it meets the condition.
-/
import LiteBSD.Vfs.Steps

namespace LiteBSD

open Lib

/-- The path of the node at an address. -/
def Vfs.path (v : Vfs) (a : Nat) : Option CStr := (v.node a).map fun n => n.path

/-- No two listed nodes have equal paths and none has the path of the root. -/
def UniquePaths (v : Vfs) : Prop :=
  (v.nodes.map v.path).Nodup ∧ some [slash] ∉ v.nodes.map v.path

/-! ## Resolved paths -/

theorem vfsResolvePath_length (cwd path : CStr) : (vfsResolvePath cwd path).length ≤ 255 := by
  unfold vfsResolvePath
  split
  · split
    · decide
    · exact List.length_take_le _ _
  · exact List.length_take_le _ _

theorem vfsResolvePath_ne_nil (cwd path : CStr) : vfsResolvePath cwd path ≠ [] := by
  have htake : ∀ l : CStr, l ≠ [] → l.take (pathMax - 1) ≠ [] := by
    intro l hl
    cases l with
    | nil => exact absurd rfl hl
    | cons b l => exact List.cons_ne_nil _ _
  have hor : ∀ l : CStr, (if l = [] then [slash] else l) ≠ [] := by
    intro l
    split
    · exact List.cons_ne_nil _ _
    · assumption
  unfold vfsResolvePath
  split
  · split
    · exact List.cons_ne_nil _ _
    · rename_i hcwd
      exact htake _ hcwd
  · exact htake _ (hor _)

/-! ## The paths and the other operations -/

section Paths

variable {v v' : Vfs}

theorem hasPath_iff {path : CStr} {a : Nat} : v.hasPath path a = true ↔ v.path a = some path := by
  unfold Vfs.hasPath Vfs.path
  cases v.node a <;> simp

/-- A path that a search does not find is no path of the list, nor the
root's. -/
theorem findNode_eq_none {path : CStr} (h : findNode v path = none) :
    path ≠ [slash] ∧ some path ∉ v.nodes.map v.path := by
  unfold findNode at h
  split at h
  · cases h
  · rename_i hroot
    refine ⟨hroot, ?_⟩
    rw [List.mem_map]
    rintro ⟨a, ha, hp⟩
    exact List.find?_eq_none.mp h a ha (hasPath_iff.mpr hp)

/-- What a search finds has the path. -/
theorem findNode_path {path : CStr} {a : Nat} (h : findNode v path = some a)
    (hroot : path ≠ [slash]) : a ∈ v.nodes ∧ v.path a = some path := by
  rw [findNode, if_neg hroot] at h
  exact ⟨List.mem_of_find?_eq_some h, hasPath_iff.mp (List.find?_some h)⟩

theorem UniquePaths.of_same (h : UniquePaths v) (hnodes : v'.nodes = v.nodes)
    (hpath : ∀ x ∈ v.nodes, v'.path x = v.path x) : UniquePaths v' := by
  have he : v'.nodes.map v'.path = v.nodes.map v.path := by
    rw [hnodes]
    exact List.map_congr_left hpath
  unfold UniquePaths
  rw [he]
  exact h

/-- A node comes under a path that a search did not find. -/
theorem UniquePaths.cons {a : Nat} {p : CStr} (h : UniquePaths v)
    (hnodes : v'.nodes = a :: v.nodes) (ha : v'.path a = some p)
    (hpath : ∀ x ∈ v.nodes, v'.path x = v.path x) (habs : findNode v p = none) :
    UniquePaths v' := by
  obtain ⟨hroot, hnew⟩ := findNode_eq_none habs
  have he : v'.nodes.map v'.path = some p :: v.nodes.map v.path := by
    rw [hnodes, List.map_cons, ha, List.map_congr_left hpath]
  unfold UniquePaths
  rw [he]
  refine ⟨List.nodup_cons.mpr ⟨hnew, h.1⟩, ?_⟩
  rw [List.mem_cons, not_or]
  exact ⟨fun hr => hroot (Option.some.inj hr).symm, h.2⟩

theorem UniquePaths.erase {a : Nat} (h : UniquePaths v) (hnd : v.nodes.Nodup)
    (hnodes : v'.nodes = v.nodes.erase a) (hpath : ∀ x, x ≠ a → v'.path x = v.path x) :
    UniquePaths v' := by
  have he : v'.nodes.map v'.path = (v.nodes.erase a).map v.path := by
    rw [hnodes]
    exact List.map_congr_left fun x hx => hpath x (hnd.mem_erase_iff.mp hx).1
  have hsub : ((v.nodes.erase a).map v.path).Sublist (v.nodes.map v.path) :=
    List.erase_sublist.map _
  unfold UniquePaths
  rw [he]
  exact ⟨hsub.nodup h.1, fun hr => h.2 (hsub.subset hr)⟩

theorem SameNames.path (h : SameNames v v') (x : Nat) : v'.path x = v.path x := by
  have hx := congrArg (Option.map fun l : Label => l.path) (congrFun h.label x)
  simp only [Vfs.label, Option.map_map] at hx
  exact hx

/-- A store that keeps the path of a node. -/
theorem path_setNode {a : Nat} {n n' : Node} (hn : v.node a = some n) (hp : n'.path = n.path)
    (x : Nat) : (v.setNode a n').path x = v.path x := by
  simp only [Vfs.path, Vfs.setNode, Function.update_apply]
  split
  · rename_i hx
    rw [hx, hn, Option.map_some, Option.map_some, hp]
  · rfl

end Paths

/-! ## Renaming a directory -/

/-- What is below the directory `old` can be rewritten to `new`: two of the
rewritten paths stay different within the 255 bytes there are, and none of
them is the path of a node that stays. -/
def MoveClear (v : Vfs) (a : Nat) (old new : CStr) : Prop :=
  ∀ x ∈ v.nodes, ∀ p, v.path x = some p → isBelow old p →
    new.length < 255 ∧
      ∀ y ∈ v.nodes, ∀ q, y ≠ x → y ≠ a → v.path y = some q →
        if isBelow old q then
          (p.drop old.length).take (255 - new.length) ≠ (q.drop old.length).take (255 - new.length)
        else q ≠ (new ++ p.drop old.length).take 255

/-- A rename of a directory finds room for everything below it. -/
def PathsKeptApart (v : Vfs) : VfsCall → Prop
  | .rename c oldpath newpath =>
      ∀ a n, renameTarget v c oldpath newpath = some a → v.node a = some n → n.dirBit = true →
        MoveClear v a (c.resolve oldpath) (c.resolve newpath)
  | _ => True

theorem isBelow_iff {dir path : CStr} :
    isBelow dir path = true ↔ path.take dir.length = dir ∧ path[dir.length]? = some slash := by
  simp [isBelow]

theorem not_isBelow_self (dir : CStr) : isBelow dir dir = false := by
  simp [isBelow]

/-- What is below a directory goes on after it. -/
theorem isBelow_rest {dir path : CStr} (h : isBelow dir path) : path.drop dir.length ≠ [] := by
  have hlt : dir.length < path.length :=
    (List.getElem?_eq_some_iff.mp (isBelow_iff.mp h).2).1
  intro hnil
  exact absurd (List.drop_eq_nil_iff.mp hnil) (Nat.not_le.mpr hlt)

/-- A path below `dir` is `dir` and the rest. -/
theorem isBelow_split {dir path : CStr} (h : isBelow dir path) :
    path = dir ++ path.drop dir.length := by
  conv_lhs => rw [← List.take_append_drop dir.length path, (isBelow_iff.mp h).1]

section Rename

variable {v : Vfs} {a : Nat} {old new : CStr}

theorem rebase_eq (hnew : new.length ≤ 255) (path : CStr) :
    rebase old new path = (new ++ path.drop old.length).take 255 := by
  show (new.take 255 ++ path.drop old.length).take 255 = _
  rw [List.take_of_length_le hnew]

/-- Two rewritten paths differ as far as their rests differ in the room
that `new` leaves. -/
theorem rebase_eq_rebase (hnew : new.length ≤ 255) (p q : CStr) :
    rebase old new p = rebase old new q ↔
      (p.drop old.length).take (255 - new.length) = (q.drop old.length).take (255 - new.length) := by
  rw [rebase_eq hnew, rebase_eq hnew, List.take_append, List.take_append,
    List.append_right_inj]

/-- A rewritten path is the new path of the directory exactly when that
leaves no room. -/
theorem rebase_eq_new (hnew : new.length ≤ 255) {p : CStr} (hp : isBelow old p) :
    rebase old new p = new ↔ ¬new.length < 255 := by
  rw [rebase_eq hnew, List.take_append, List.take_of_length_le hnew]
  constructor
  · intro he hlt
    rcases List.take_eq_nil_iff.mp (List.append_right_eq_self.mp he) with hz | hz
    · exact absurd hz (Nat.sub_ne_zero_of_lt hlt)
    · exact isBelow_rest hp hz
  · intro hlt
    rw [Nat.sub_eq_zero_of_le (Nat.not_lt.mp hlt), List.take_zero, List.append_nil]

/-- The path of the renamed node after the rename. -/
theorem movedPath_self (hnew : new.length ≤ 255) {dir : Bool} (q : CStr) : movedPath v a dir old new a q = new := by
  rw [movedPath, if_pos rfl]
  exact List.take_of_length_le hnew

/-- The path a listed node has after the rename, when the renamed node is a
directory. -/
theorem movedPath_dir {x : Nat} {p : CStr} (hx : x ∈ v.nodes) (hxa : x ≠ a) :
    movedPath v a true old new x p = if isBelow old p then rebase old new p else p := by
  unfold movedPath
  rw [if_neg hxa]
  by_cases hp : isBelow old p
  · rw [if_pos hp, if_pos ⟨rfl, hx, hp⟩]
  · rw [if_neg hp, if_neg fun h => hp h.2.2]

/-- A rename of a directory keeps the paths apart exactly when the way is
clear.  `hstays` is what the search for the new path has established. -/
theorem moved_inj_iff (hnew : new.length ≤ 255) (ha : a ∈ v.nodes) (hold : v.path a = some old)
    (huniq : ∀ x ∈ v.nodes, ∀ y ∈ v.nodes, v.path x = v.path y → x = y)
    (hstays : some new ∉ v.nodes.map v.path) :
    (∀ x ∈ v.nodes, ∀ y ∈ v.nodes, ∀ p q, v.path x = some p → v.path y = some q →
        movedPath v a true old new x p = movedPath v a true old new y q → x = y) ↔
      MoveClear v a old new := by
  have hself : ∀ p, movedPath v a true old new a p = new := movedPath_self hnew
  have hne : ∀ {x p}, v.path x = some p → isBelow old p → x ≠ a := by
    rintro x p hp hb rfl
    rw [hold, Option.some.injEq] at hp
    rw [← hp, not_isBelow_self] at hb
    cases hb
  have hfree : ∀ {y q}, y ∈ v.nodes → v.path y = some q → q ≠ new := by
    rintro y q hy hq rfl
    exact hstays (List.mem_map.mpr ⟨y, hy, hq⟩)
  constructor
  · intro hinj x hx p hp hb
    have hxa := hne hp hb
    have hmx : movedPath v a true old new x p = rebase old new p := by
      rw [movedPath_dir hx hxa, if_pos hb]
    refine ⟨?_, ?_⟩
    · by_contra hlong
      refine hxa (hinj x hx a ha p old hp hold ?_)
      rw [hmx, hself, (rebase_eq_new hnew hb).mpr hlong]
    · intro y hy q hyx hya hq
      have hmy : movedPath v a true old new y q = if isBelow old q then rebase old new q else q :=
        movedPath_dir hy hya
      split
      · rename_i hbq
        intro heq
        refine hyx (hinj x hx y hy p q hp hq ?_).symm
        rw [hmx, hmy, if_pos hbq]
        exact (rebase_eq_rebase hnew p q).mpr heq
      · rename_i hbq
        intro heq
        refine hyx (hinj x hx y hy p q hp hq ?_).symm
        rw [hmx, hmy, if_neg hbq, rebase_eq hnew, heq]
  · intro hclear x hx y hy p q hp hq heq
    by_contra hxy
    -- the two cases where both are listed nodes that stay, or one of them is
    -- the directory, are settled by what held before; the others by `hclear`
    have hmoved : ∀ {x y p q}, x ∈ v.nodes → y ∈ v.nodes → x ≠ y → v.path x = some p →
        v.path y = some q → isBelow old p →
        movedPath v a true old new x p ≠ movedPath v a true old new y q := by
      intro x y p q hx hy hxy hp hq hb heq
      obtain ⟨hlong, hapart⟩ := hclear x hx p hp hb
      rw [movedPath_dir hx (hne hp hb), if_pos hb] at heq
      by_cases hya : y = a
      · subst hya
        rw [hself, rebase_eq_new hnew hb] at heq
        exact heq hlong
      · have hyq := hapart y hy q (Ne.symm hxy) hya hq
        rw [movedPath_dir hy hya] at heq
        by_cases hbq : isBelow old q
        · rw [if_pos hbq] at heq hyq
          exact hyq ((rebase_eq_rebase hnew p q).mp heq)
        · rw [if_neg hbq] at heq hyq
          exact hyq (heq ▸ rebase_eq hnew p)
    by_cases hbp : isBelow old p
    · exact hmoved hx hy hxy hp hq hbp heq
    by_cases hbq : isBelow old q
    · exact hmoved hy hx (Ne.symm hxy) hq hp hbq heq.symm
    by_cases hxa : x = a
    · subst hxa
      rw [hself, movedPath_dir hy (Ne.symm hxy), if_neg hbq] at heq
      exact hfree hy hq heq.symm
    · rw [movedPath_dir hx hxa, if_neg hbp] at heq
      by_cases hya : y = a
      · subst hya
        rw [hself] at heq
        exact hfree hx hp heq
      · rw [movedPath_dir hy hya, if_neg hbq] at heq
        exact hxy (huniq x hx y hy (by rw [hp, hq, heq]))

/-- No rename makes a path the root's. -/
theorem movedPath_ne_root {x : Nat} {dir : Bool} {p : CStr} (hnew : new.length ≤ 255)
    (hnil : new ≠ []) (hroot : new ≠ [slash]) (hp : p ≠ [slash]) :
    movedPath v a dir old new x p ≠ [slash] := by
  unfold movedPath
  split
  · rw [show pathMax - 1 = 255 from rfl, List.take_of_length_le hnew]
    exact hroot
  · split
    · rename_i hb
      -- at least one byte of `new` and one of the rest
      intro he
      have hlen := congrArg List.length he
      have hn := List.length_pos_iff.mpr hnil
      have hr := List.length_pos_iff.mpr (isBelow_rest hb.2.2)
      rw [rebase_eq hnew, List.length_take, List.length_append] at hlen
      simp only [List.length_cons, List.length_nil] at hlen
      omega
    · exact hp

end Rename

/-! ## One step, and runs -/

section Steps

variable {v v' : Vfs}

/-- Distinctness in terms of the nodes. -/
theorem uniquePaths_iff (hnd : v.nodes.Nodup) : UniquePaths v ↔
    (∀ x ∈ v.nodes, ∀ y ∈ v.nodes, v.path x = v.path y → x = y) ∧
      ∀ x ∈ v.nodes, v.path x ≠ some [slash] := by
  unfold UniquePaths
  rw [List.nodup_map_iff_inj_on hnd, List.mem_map, not_exists]
  simp only [not_and]

/-- What `vfs_rename` has checked about the node it moves. -/
theorem renameTarget_some {c : Caller} {oldpath newpath : CStr} {a : Nat}
    (h : renameTarget v c oldpath newpath = some a) :
    c.resolve newpath ≠ [slash] ∧ findNode v (c.resolve newpath) = none ∧ a ∈ v.nodes ∧
      v.path a = some (c.resolve oldpath) := by
  unfold renameTarget at h
  dsimp only at h
  split at h
  · cases h
  · rename_i hchecks
    simp only [not_or, Option.not_isSome_iff_eq_none] at hchecks
    obtain ⟨_, _, hold, hnew, _, habs⟩ := hchecks
    obtain ⟨ha, hp⟩ := findNode_path h hold
    exact ⟨hnew, habs, ha, hp⟩

/-- The paths after a rename. -/
theorem path_renamed {a : Nat} {old new : CStr} {ret : Int}
    (h : renameNode v a old new = .ret (v', ret)) :
    ∃ n, v.node a = some n ∧ v'.nodes = v.nodes ∧
      ∀ x, v'.path x = (v.path x).map (movedPath v a n.dirBit old new x) := by
  obtain ⟨n, hn, rfl⟩ := renameNode_ret h
  refine ⟨n, hn, rfl, fun x => ?_⟩
  simp only [Vfs.path, Option.map_map]
  rfl

/-- Where the path of a listed node comes from: the node had it before, the
call has made the node, or a rename has moved it. -/
inductive PathOrigin (v v' : Vfs) : VfsCall → Nat → CStr → Prop
  | kept {call : VfsCall} {x : Nat} {p : CStr} : x ∈ v.nodes → v.path x = some p →
      PathOrigin v v' call x p
  | created {call : VfsCall} {x : Nat} {p : CStr} : v'.nodes = x :: v.nodes →
      call.creates = some p → PathOrigin v v' call x p
  | moved {c : Caller} {oldpath newpath p : CStr} {a x : Nat} {n : Node} :
      renameTarget v c oldpath newpath = some a → x ∈ v.nodes → v.path x = some p →
      PathOrigin v v' (.rename c oldpath newpath) x
        (movedPath v a n.dirBit (c.resolve oldpath) (c.resolve newpath) x p)

theorem listed_path {call : VfsCall} {x : Nat} {p : CStr} (ht : NodeTable v)
    (hs : vfsCall v call = .ret v') (hx : x ∈ v'.nodes) (hp : v'.path x = some p) :
    PathOrigin v v' call x p := by
  have hold : ∀ x ∈ v.nodes, ∀ a, v.nextObj ≤ a → x ≠ a := by
    intro x hx a hge
    obtain ⟨m, hm, _⟩ := ht.listed x hx
    exact Nat.ne_of_lt (Nat.lt_of_lt_of_le (ht.lt_supply hm) hge)
  -- nothing new on the list, and no path changed
  have hsame : v'.nodes = v.nodes → (∀ x ∈ v.nodes, v'.path x = v.path x) →
      PathOrigin v v' call x p := by
    intro hnodes hpath
    rw [hnodes] at hx
    exact .kept hx (hpath x hx ▸ hp)
  -- one new node
  have hcons : ∀ {a n}, v'.nodes = a :: v.nodes → v'.node a = some n → call.creates = some n.path →
      (∀ x ∈ v.nodes, v'.path x = v.path x) → PathOrigin v v' call x p := by
    intro a n hnodes ha hmade hpath
    have hx' := hx
    rw [hnodes] at hx'
    rcases List.mem_cons.mp hx' with rfl | hmem
    · rw [Vfs.path, ha, Option.map_some, Option.some.injEq] at hp
      exact .created hnodes (hp ▸ hmade)
    · exact .kept hmem (hpath x hmem ▸ hp)
  cases call_effect ht.fresh hs with
  | idle hu => exact hsame hu.nodes fun x _ => by rw [Vfs.path, hu.node]; rfl
  | opened hn _ hv =>
      subst hv
      exact hsame rfl fun x _ => path_setNode hn (by rfl) x
  | @made _ a n hm hmade =>
      have hpath : ∀ x ∈ v.nodes, v'.path x = v.path x := by
        intro x hx
        rw [Vfs.path, hm.node, Function.update_of_ne (hold x hx a hm.fresh.1)]
        rfl
      cases hsy : n.synth with
      | true => exact hsame (by rw [hm.nodes, hsy]; rfl) hpath
      | false =>
          refine hcons (a := a) (n := n) (by rw [hm.nodes, hsy]; rfl) ?_ (hmade hsy) hpath
          rw [hm.node, Function.update_self]
  | @linked _ _ _ a target k n t hl hmade =>
      refine hcons (a := a) (n := n) hl.nodes ?_ (congrArg some hmade.symm) fun x hx => ?_
      · rw [hl.node, Function.update_self]
      · rw [Vfs.path, hl.node, Function.update_of_ne (hold x hx a hl.fresh.1)]
        show (v.setNode target { t with dataRefs := some k }).path x = v.path x
        exact path_setNode hl.live (by rfl) x
  | wrote hw =>
      have hnames := SameNames.of_vfsWrite hw
      exact hsame hnames.nodes fun x _ => hnames.path x
  | truncated hw =>
      have hnames := SameNames.of_vfsTruncate hw
      exact hsame hnames.nodes fun x _ => hnames.path x
  | @closed a ret hc =>
      obtain ⟨n, hn, ⟨k, rfl⟩ | ⟨hsynth, _, _, hnodes, hnode, _⟩⟩ := vfsClose_ret hc
      · exact hsame rfl fun x _ => path_setNode hn (by rfl) x
      · refine hsame hnodes fun x hx => ?_
        have hxa : x ≠ a := by
          rintro rfl
          obtain ⟨m, hm, hms⟩ := ht.listed x hx
          rw [Option.some.inj (hm.symm.trans hn), hsynth] at hms
          cases hms
        rw [Vfs.path, hnode, Function.update_of_ne hxa]
        rfl
  | @unlinked _ a _ _ hun =>
      obtain ⟨n, hun⟩ := unlinkNode_ret hun
      rw [hun.nodes] at hx
      have hxa := (ht.nodup.mem_erase_iff.mp hx).1
      rw [Vfs.path, hun.node, Function.update_of_ne hxa] at hp
      exact .kept (List.mem_of_mem_erase hx) hp
  | @renamed c oldpath newpath a ret ha hr =>
      obtain ⟨n, _, hnodes, hmoved⟩ := path_renamed hr
      rw [hmoved x] at hp
      obtain ⟨q, hq, rfl⟩ := Option.map_eq_some_iff.mp hp
      exact .moved ha (hnodes ▸ hx) hq

/-- A moved path is no longer than a node can hold. -/
theorem movedPath_length {a x : Nat} {dir : Bool} {old new p : CStr} (hp : p.length ≤ 255) :
    (movedPath v a dir old new x p).length ≤ 255 := by
  unfold movedPath
  split
  · exact List.length_take_le _ _
  split
  · exact List.length_take_le _ _
  · exact hp

/-- A rename brings two paths together exactly when the way is not clear. -/
theorem uniquePaths_rename {c : Caller} {oldpath newpath : CStr} {ret : Int} (ht : NodeTable v)
    (hu : UniquePaths v) (h : vfsRename v c oldpath newpath = .ret (v', ret)) :
    UniquePaths v' ↔ PathsKeptApart v (.rename c oldpath newpath) := by
  rcases vfsRename_effect h with ⟨hnone, rfl⟩ | ⟨a, ha, hr⟩
  · refine ⟨fun _ b n hb => ?_, fun _ => hu⟩
    rw [hnone] at hb
    cases hb
  obtain ⟨n, hn, hnodes, hmoved⟩ := path_renamed hr
  obtain ⟨hroot, habs, han, hold⟩ := renameTarget_some ha
  obtain ⟨huniq, hslash⟩ := (uniquePaths_iff ht.nodup).mp hu
  have hlen := vfsResolvePath_length (if c.cwd = [] then [slash] else c.cwd) newpath
  have hnil := vfsResolvePath_ne_nil (if c.cwd = [] then [slash] else c.cwd) newpath
  change (c.resolve newpath).length ≤ 255 at hlen
  change c.resolve newpath ≠ [] at hnil
  have hfree := (findNode_eq_none habs).2
  have hlive : ∀ x ∈ v.nodes, ∃ p, v.path x = some p := by
    intro x hx
    obtain ⟨m, hm, _⟩ := ht.listed x hx
    exact ⟨m.path, by rw [Vfs.path, hm, Option.map_some]⟩
  have hguard : PathsKeptApart v (.rename c oldpath newpath) ↔
      (n.dirBit = true → MoveClear v a (c.resolve oldpath) (c.resolve newpath)) := by
    refine ⟨fun hg => hg a n ha hn, fun hg b m hb hm hd => ?_⟩
    rw [ha, Option.some.injEq] at hb
    subst hb
    rw [hn, Option.some.injEq] at hm
    exact hg (hm ▸ hd)
  rw [uniquePaths_iff (hnodes ▸ ht.nodup), hguard, hnodes]
  constructor
  · rintro ⟨hinj, _⟩ hd
    refine (moved_inj_iff hlen han hold huniq hfree).mp fun x hx y hy p q hp hq he => ?_
    refine hinj x hx y hy ?_
    rw [hmoved, hmoved, hp, hq, hd, Option.map_some, Option.map_some, he]
  · intro hclear
    refine ⟨fun x hx y hy he => ?_, fun x hx he => ?_⟩
    · obtain ⟨p, hp⟩ := hlive x hx
      obtain ⟨q, hq⟩ := hlive y hy
      rw [hmoved, hmoved, hp, hq, Option.map_some, Option.map_some, Option.some.injEq] at he
      cases hd : n.dirBit with
      | true =>
          rw [hd] at he
          exact (moved_inj_iff hlen han hold huniq hfree).mpr (hclear hd) x hx y hy p q hp hq he
      | false =>
          rw [hd] at he
          have hstay : ∀ z r, z ≠ a → movedPath v a false (c.resolve oldpath)
              (c.resolve newpath) z r = r := fun z r hz => by simp [movedPath, hz]
          have hself : ∀ r, movedPath v a false (c.resolve oldpath)
              (c.resolve newpath) a r = c.resolve newpath := movedPath_self hlen
          by_cases hxa : x = a
          · by_cases hya : y = a
            · rw [hxa, hya]
            · rw [hxa, hself, hstay y q hya] at he
              exact absurd (List.mem_map.mpr ⟨y, hy, by rw [hq, he]⟩) hfree
          · by_cases hya : y = a
            · rw [hya, hself, hstay x p hxa] at he
              exact absurd (List.mem_map.mpr ⟨x, hx, by rw [hp, he]⟩) hfree
            · rw [hstay x p hxa, hstay y q hya] at he
              exact huniq x hx y hy (by rw [hp, hq, he])
    · obtain ⟨p, hp⟩ := hlive x hx
      rw [hmoved, hp, Option.map_some, Option.some.injEq] at he
      refine movedPath_ne_root hlen hnil hroot ?_ he
      rintro rfl
      exact hslash x hx hp

/-- Only a rename can bring two paths together. -/
theorem uniquePaths_step {call : VfsCall} (ht : NodeTable v) (hu : UniquePaths v)
    (hs : vfsCall v call = .ret v') : UniquePaths v' ↔ PathsKeptApart v call := by
  by_cases hren : ∃ c oldpath newpath, call = .rename c oldpath newpath
  · obtain ⟨c, oldpath, newpath, rfl⟩ := hren
    obtain ⟨⟨w, r⟩, hw, h⟩ := Exec.bind_eq_ret.mp hs
    cases h
    exact uniquePaths_rename ht hu hw
  · have hguard : PathsKeptApart v call := by
      cases call with
      | rename c oldpath newpath => exact absurd ⟨c, oldpath, newpath, rfl⟩ hren
      | _ => trivial
    refine ⟨fun _ => hguard, fun _ => ?_⟩
    cases call_effect ht.fresh hs with
    | idle hid => exact hu.of_same hid.nodes fun x _ => by rw [Vfs.path, hid.node]; rfl
    | opened hn _ hv =>
        subst hv
        exact hu.of_same rfl fun x _ => path_setNode hn (by rfl) x
    | @made _ a n hm _ =>
        have hother : ∀ x ∈ v.nodes, v'.path x = v.path x := by
          intro x hx
          obtain ⟨m, hxm, _⟩ := ht.listed x hx
          have hxa : x ≠ a := Nat.ne_of_lt (Nat.lt_of_lt_of_le (ht.lt_supply hxm) hm.fresh.1)
          rw [Vfs.path, hm.node, Function.update_of_ne hxa]
          rfl
        cases hsy : n.synth with
        | true => exact hu.of_same (by rw [hm.nodes, hsy]; rfl) hother
        | false =>
            refine hu.cons (a := a) (p := n.path) (by rw [hm.nodes, hsy]; rfl) ?_ hother
              (hm.absent hsy)
            rw [Vfs.path, hm.node, Function.update_self]
            rfl
    | @linked _ _ _ a target k n t hl _ =>
        refine hu.cons (a := a) (p := n.path) hl.nodes ?_ ?_ hl.absent
        · rw [Vfs.path, hl.node, Function.update_self]
          rfl
        · intro x hx
          obtain ⟨m, hxm, _⟩ := ht.listed x hx
          have hxa : x ≠ a := Nat.ne_of_lt (Nat.lt_of_lt_of_le (ht.lt_supply hxm) hl.fresh.1)
          rw [Vfs.path, hl.node, Function.update_of_ne hxa]
          show (v.setNode target { t with dataRefs := some k }).path x = v.path x
          exact path_setNode hl.live (by rfl) x
    | wrote hw =>
        have hsame := SameNames.of_vfsWrite hw
        exact hu.of_same hsame.nodes fun x _ => hsame.path x
    | truncated hw =>
        have hsame := SameNames.of_vfsTruncate hw
        exact hu.of_same hsame.nodes fun x _ => hsame.path x
    | @closed a ret hc =>
        obtain ⟨n, hn, ⟨k, rfl⟩ | ⟨hsynth, _, _, hnodes, hnode, _⟩⟩ := vfsClose_ret hc
        · exact hu.of_same rfl fun x _ => path_setNode hn (by rfl) x
        · refine hu.of_same hnodes fun x hx => ?_
          obtain ⟨m, hxm, hms⟩ := ht.listed x hx
          have hxa : x ≠ a := by
            rintro rfl
            rw [hn, Option.some.injEq] at hxm
            rw [hxm, hms] at hsynth
            cases hsynth
          rw [Vfs.path, hnode, Function.update_of_ne hxa]
          rfl
    | unlinked _ _ hun =>
        obtain ⟨n, hun⟩ := unlinkNode_ret hun
        refine hu.erase ht.nodup hun.nodes fun x hxa => ?_
        rw [Vfs.path, hun.node, Function.update_of_ne hxa]
        rfl
    | renamed _ _ => exact absurd ⟨_, _, _, rfl⟩ hren

end Steps

/-- Along any run from the empty list, every step leaves the paths distinct
exactly if every directory rename in it found its way clear. -/
theorem paths_unique_iff {tr : List (Vfs × VfsCall × Vfs)} {v : Vfs}
    (h : vfsSystem.Trace tr v) :
    (∀ x ∈ tr, UniquePaths x.2.2) ↔ ∀ x ∈ tr, PathsKeptApart x.1 x.2.1 := by
  refine System.Trace.good_iff_guarded (I := fun v => NodeTable v ∧ UniquePaths v)
    (P := fun _ _ v' => UniquePaths v') ?_ ?_ ?_ h
  · rintro w hw
    refine ⟨.of_boot hw, ?_⟩
    obtain ⟨mem, fb, rfl⟩ := hw
    exact ⟨.nil, by simp [emptyVfs]⟩
  · rintro w call w' ⟨ht, hu⟩ hg hs
    exact ⟨ht.step hs, (uniquePaths_step ht hu hs).mpr hg⟩
  · rintro w call w' ⟨ht, hu⟩ hs
    exact uniquePaths_step ht hu hs

/-- The calls of a run with a rename in it. -/
theorem paths_of_renamed_directory : ∃ tr v, vfsSystem.Trace tr v ∧ tr.length = 3 ∧
    ((∀ x ∈ tr, UniquePaths x.2.2) ↔ ∀ x ∈ tr, PathsKeptApart x.1 x.2.1) := by
  obtain ⟨tr, htr, hlen⟩ := trace_vfsCalls (.nil ⟨memoryOf 0, none, rfl⟩)
    [.mkdir rootCaller (str "/a"), .openPath rootCaller (str "/a/x") 0x40,
      .rename rootCaller (str "/a") (str "/b")] rfl
  exact ⟨tr, _, htr, hlen, paths_unique_iff htr⟩

/-- Renaming `/a` to `/b` while there are `/a/x` and `/b/x` makes two nodes
with the path `/b/x`. -/
theorem rename_onto_existing : ¬∀ v, vfsSystem.Reach v → UniquePaths v := by
  intro hall
  have h := hall _ (reach_vfsCalls (S := vfsSystem) id (.init ⟨memoryOf 0, none, rfl⟩)
    [.mkdir rootCaller (str "/a"), .openPath rootCaller (str "/a/x") 0x40,
      .openPath rootCaller (str "/b/x") 0x40, .rename rootCaller (str "/a") (str "/b")] rfl)
  exact absurd h.1 (by decide)

end LiteBSD
