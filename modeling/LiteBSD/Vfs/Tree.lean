/-
# `LiteBSD.Vfs.Tree` — when the flat list is a tree

The list holds full paths, and no creation or rename asks whether the
directory it names is there: a `mkdir` of `/a/b` in an empty file system
succeeds, and so does a rename of `/a` to `/a/b`.  The list is a tree as long
as the CALLERS keep it one: every node is made, and moved to, below a
directory that exists, and no directory is moved below itself (`KeepsTree`).
Removing needs less care: `rmdir` takes empty directories only, and `unlink`
refuses directories but for one at `/dev/fb0`.

The argument is about strings.  A path that is not directly below the root
is below its parent (`pathParentDir_below`).  A directory that moves takes
what is below it along, cut to 255 bytes; the list has a directory above each
slash of a path (`TreeInv.listed_above`), so the cut paths have one as well.
-/
import LiteBSD.Vfs.Names
import Mathlib.Data.List.TakeWhile

namespace LiteBSD

open Lib

/-! ## Parents of paths -/

section Parents

theorem stripSlashes_le (p : CStr) : ∀ n, stripSlashes p n ≤ n
  | 0 => Nat.le_refl _
  | 1 => Nat.le_refl _
  | n + 2 => by
      rw [stripSlashes]
      split
      · exact Nat.le_succ_of_le (stripSlashes_le p (n + 1))
      · exact Nat.le_refl _

theorem lastSlash_some {p : CStr} : ∀ {n i : Nat}, lastSlash p n = some i →
    i < n ∧ p[i]? = some slash
  | 0, _, h => by cases h
  | n + 1, i, h => by
      rw [lastSlash] at h
      split at h
      · rename_i hp
        cases h
        exact ⟨Nat.lt_succ_self _, hp⟩
      · obtain ⟨hi, hp⟩ := lastSlash_some h
        exact ⟨Nat.lt_succ_of_lt hi, hp⟩

/-- A path is below its parent, unless that is the root. -/
theorem pathParentDir_below (p : CStr) :
    pathParentDir p = [slash] ∨ isBelow (pathParentDir p) p = true := by
  unfold pathParentDir
  dsimp only
  split
  · exact .inl rfl
  · rename_i last hlast
    obtain ⟨hlt, hp⟩ := lastSlash_some hlast
    have hlen : last < min p.length 255 := Nat.lt_of_lt_of_le hlt (stripSlashes_le p _)
    split
    · exact .inl rfl
    · refine .inr (isBelow_iff.mpr ?_)
      have hmin : min last (pathMax - 1) = last :=
        Nat.min_eq_left (Nat.le_of_lt (Nat.lt_of_lt_of_le hlen (Nat.min_le_right _ _)))
      rw [hmin, List.length_take_of_le (Nat.le_of_lt (Nat.lt_of_lt_of_le hlen
        (Nat.min_le_left _ _)))]
      exact ⟨rfl, hp⟩

theorem isBelow_trans {a b c : CStr} (hab : isBelow a b) (hbc : isBelow b c) : isBelow a c := by
  obtain ⟨ha, hs⟩ := isBelow_iff.mp hab
  have hc := isBelow_split hbc
  have hlt : a.length < b.length := (List.getElem?_eq_some_iff.mp hs).1
  refine isBelow_iff.mpr ?_
  rw [hc, List.take_append_of_le_length (Nat.le_of_lt hlt), List.getElem?_append_left hlt]
  exact ⟨ha, hs⟩

/-- The walk over trailing slashes reads the first `n` bytes only. -/
theorem stripSlashes_append (x rest : CStr) : ∀ n, n ≤ x.length →
    stripSlashes (x ++ rest) n = stripSlashes x n
  | 0, _ => rfl
  | 1, _ => rfl
  | n + 2, h => by
      rw [stripSlashes, stripSlashes, List.getElem?_append_left (Nat.lt_of_succ_le h),
        stripSlashes_append x rest (n + 1) (Nat.le_of_succ_le h)]

theorem lastSlash_append (x rest : CStr) : ∀ n, n ≤ x.length →
    lastSlash (x ++ rest) n = lastSlash x n
  | 0, _ => rfl
  | n + 1, h => by
      rw [lastSlash, lastSlash, List.getElem?_append_left (Nat.lt_of_succ_le h),
        lastSlash_append x rest n (Nat.le_of_succ_le h)]

/-- The first `k` bytes of `rest` without the slashes at their end. -/
def stripRest (rest : CStr) : Nat → Option Nat
  | 0 => none
  | k + 1 => if rest[k]? = some slash then stripRest rest k else some (k + 1)

theorem stripSlashes_rest {x : CStr} (hx : x ≠ []) (rest : CStr) : ∀ k,
    stripSlashes (x ++ rest) (x.length + k) =
      match stripRest rest k with
      | some m => x.length + m
      | none => stripSlashes x x.length
  | 0 => stripSlashes_append x rest _ (Nat.le_refl _)
  | k + 1 => by
      obtain ⟨n, hn⟩ := Nat.exists_eq_succ_of_ne_zero (mt List.length_eq_zero_iff.mp hx)
      have ih := stripSlashes_rest hx rest k
      have hget : (x ++ rest)[x.length + k]? = rest[k]? := by
        rw [List.getElem?_append_right (Nat.le_add_right _ _), Nat.add_sub_cancel_left]
      have hidx : x.length + (k + 1) = n + k + 2 := by omega
      have hidx' : x.length + k = n + k + 1 := by omega
      rw [hidx, stripSlashes, ← hidx', hget, stripRest]
      split
      · exact ih
      · exact hidx.symm

theorem stripRest_pos {rest : CStr} : ∀ {k m : Nat}, stripRest rest k = some m → 0 < m ∧ m ≤ k
  | 0, _, h => by cases h
  | k + 1, m, h => by
      rw [stripRest] at h
      split at h
      · obtain ⟨hm, hk⟩ := stripRest_pos h
        exact ⟨hm, Nat.le_succ_of_le hk⟩
      · cases h
        exact ⟨Nat.succ_pos _, Nat.le_refl _⟩

/-- When `rest` starts with a slash, the last slash is in it. -/
theorem lastSlash_rest (x : CStr) {rest : CStr} (hs : rest[0]? = some slash) : ∀ m,
    ∃ j, lastSlash rest (m + 1) = some j ∧
      lastSlash (x ++ rest) (x.length + (m + 1)) = some (x.length + j)
  | 0 => by
      refine ⟨0, by rw [lastSlash, if_pos hs], ?_⟩
      have hget : (x ++ rest)[x.length]? = rest[0]? := by
        rw [List.getElem?_append_right (Nat.le_refl _), Nat.sub_self]
      rw [← Nat.add_assoc, lastSlash, Nat.add_zero, hget, if_pos hs]
  | m + 1 => by
      obtain ⟨j, hj, hxj⟩ := lastSlash_rest x hs m
      have hget : (x ++ rest)[x.length + (m + 1)]? = rest[m + 1]? := by
        rw [List.getElem?_append_right (Nat.le_add_right _ _), Nat.add_sub_cancel_left]
      by_cases hm : rest[m + 1]? = some slash
      · refine ⟨m + 1, by rw [lastSlash, if_pos hm], ?_⟩
        rw [← Nat.add_assoc, lastSlash, hget, if_pos hm]
      · refine ⟨j, by rw [lastSlash, if_neg hm, hj], ?_⟩
        rw [← Nat.add_assoc, lastSlash, hget, if_neg hm, hxj]

/-- The parent of `x ++ rest`, where `rest` starts with a slash: it is the
parent of `x` when `rest` is slashes only, and otherwise `x` with a part of
`rest` that does not depend on `x`. -/
theorem pathParentDir_append {rest : CStr} (hs : rest[0]? = some slash) {x : CStr} (hx : x ≠ [])
    (hlen : (x ++ rest).length ≤ 255) :
    (stripRest rest rest.length = none ∧ pathParentDir (x ++ rest) = pathParentDir x) ∨
      ∃ m j, stripRest rest rest.length = some (m + 1) ∧ lastSlash rest (m + 1) = some j ∧
        pathParentDir (x ++ rest) = x ++ rest.take j := by
  have hmin : min (x ++ rest).length (pathMax - 1) = x.length + rest.length := by
    rw [List.length_append] at hlen ⊢
    exact Nat.min_eq_left hlen
  rw [List.length_append] at hlen
  have hminx : min x.length (pathMax - 1) = x.length :=
    Nat.min_eq_left (Nat.le_trans (Nat.le_add_right _ _) hlen)
  have hstrip := stripSlashes_rest hx rest rest.length
  cases hr : stripRest rest rest.length with
  | none =>
      refine .inl ⟨rfl, ?_⟩
      rw [hr] at hstrip
      unfold pathParentDir
      rw [hmin, hstrip, hminx]
      dsimp only
      rw [lastSlash_append x rest _ (stripSlashes_le _ _)]
      split
      · rfl
      · rename_i last hlast
        have hlt := Nat.lt_of_lt_of_le (lastSlash_some hlast).1 (stripSlashes_le x _)
        split
        · rfl
        · rw [List.take_append_of_le_length
            (Nat.le_trans (Nat.min_le_left _ _) (Nat.le_of_lt hlt))]
  | some m =>
      obtain ⟨hm, hmle⟩ := stripRest_pos hr
      obtain ⟨m, rfl⟩ := Nat.exists_eq_succ_of_ne_zero (Nat.pos_iff_ne_zero.mp hm)
      obtain ⟨j, hj, hxj⟩ := lastSlash_rest x hs m
      refine .inr ⟨m, j, rfl, hj, ?_⟩
      have hjlt := (lastSlash_some hj).1
      have hxpos : 0 < x.length := List.length_pos_iff.mpr hx
      rw [hr] at hstrip
      unfold pathParentDir
      rw [hmin, hstrip]
      dsimp only
      rw [hxj]
      dsimp only
      rw [if_neg (by omega), show pathMax - 1 = 255 from rfl, Nat.min_eq_left (by omega),
        List.take_append, List.take_of_length_le (Nat.le_add_right _ _), Nat.add_sub_cancel_left]

theorem stripSlashes_gt {p : CStr} {k : Nat} (hk : p[k]? ≠ some slash) : ∀ n, k < n →
    k < stripSlashes p n
  | 0, h => h
  | 1, h => h
  | n + 2, h => by
      rw [stripSlashes]
      split
      · rename_i hslash
        have hne : k ≠ n + 1 := fun he => hk (he ▸ hslash)
        exact stripSlashes_gt hk (n + 1) (by omega)
      · exact h

theorem lastSlash_ge {p : CStr} {i : Nat} (hs : p[i]? = some slash) : ∀ n, i < n →
    ∃ last, lastSlash p n = some last ∧ i ≤ last
  | n + 1, h => by
      rw [lastSlash]
      split
      · exact ⟨n, rfl, Nat.le_of_lt_succ h⟩
      · rename_i hslash
        have hne : i ≠ n := fun he => hslash (he ▸ hs)
        exact lastSlash_ge hs n (by omega)

theorem lastSlash_last {p : CStr} : ∀ {n i k : Nat}, lastSlash p n = some i → i < k → k < n →
    p[k]? ≠ some slash
  | n + 1, i, k, h, hik, hk => by
      rw [lastSlash] at h
      split at h
      · cases h
        omega
      · rename_i hslash
        rcases Nat.lt_succ_iff_lt_or_eq.mp hk with hk | rfl
        · exact lastSlash_last h hik hk
        · exact hslash

theorem stripRest_last {rest : CStr} : ∀ {k m : Nat}, stripRest rest k = some (m + 1) →
    rest[m]? ≠ some slash
  | k + 1, m, h => by
      rw [stripRest] at h
      split at h
      · exact stripRest_last h
      · rename_i hslash
        cases h
        exact hslash

/-- The parent of a path reaches as far as each slash of it that has a name
behind it. -/
theorem pathParentDir_ge {p : CStr} {i : Nat} (hlen : p.length ≤ 255) (hi : 0 < i)
    (hs : p[i]? = some slash) (hname : p[i + 1]? ≠ some slash) (hlt : i + 1 < p.length) :
    ∃ last, i ≤ last ∧ last < p.length ∧ p[last]? = some slash ∧ pathParentDir p = p.take last := by
  have hmin : min p.length (pathMax - 1) = p.length := Nat.min_eq_left hlen
  have hstrip := stripSlashes_gt hname p.length hlt
  obtain ⟨last, hlast, hle⟩ := lastSlash_ge hs (stripSlashes p p.length) (by omega)
  obtain ⟨hltl, hsl⟩ := lastSlash_some hlast
  have hlast' : last < p.length := Nat.lt_of_lt_of_le hltl (stripSlashes_le p _)
  refine ⟨last, hle, hlast', hsl, ?_⟩
  unfold pathParentDir
  rw [hmin]
  dsimp only
  rw [hlast]
  dsimp only
  have hcap : min last (pathMax - 1) = last := Nat.min_eq_left (by omega)
  rw [if_neg (Nat.ne_of_gt (Nat.lt_of_lt_of_le hi hle)), hcap]

end Parents

/-! ## Trees -/

/-- The parent of `p` is the root, a directory of the list, or a synthetic
directory. -/
def ParentOk (v : Vfs) (pids : List Nat) (p : CStr) : Prop :=
  pathParentDir p = [slash] ∨
    (∃ b ∈ v.nodes, ∃ n, v.node b = some n ∧ n.path = pathParentDir p ∧ isDirNode n = true) ∨
    ∃ sid, synthLookup pids (pathParentDir p) = some sid ∧ sid.isDir = true

/-- The parent of every node is there. -/
def IsTree (pids : List Nat) (v : Vfs) : Prop :=
  ∀ a ∈ v.nodes, ∀ n, v.node a = some n → ParentOk v pids n.path

def VfsCall.caller : VfsCall → Option Caller
  | .openPath c _ _ | .unlink c _ | .mkdir c _ | .link c _ _ | .symlink c _ _ | .rename c _ _
  | .rmdir c _ => some c
  | .close _ | .write _ _ _ | .truncate _ _ => none

/-- The calls as the system calls make them: `unlink` goes through
`sys_unlink`. -/
def treeCall (v : Vfs) : VfsCall → Exec Vfs
  | .unlink c path => do let (v, _) ← sysUnlink v c path; .ret v
  | call => vfsCall v call

/-- Runs while the ready queue holds the tasks `pids`. -/
def treeSystem (pids : List Nat) : System Vfs VfsCall where
  init := VfsBoot
  step := fun v call v' =>
    (∀ c, call.caller = some c → c.pids = pids) ∧ treeCall v call = .ret v'

/-- What the caller of a call sees to: a node is made, or moved to, below a
directory that exists; a directory is not moved below itself; and what is
unlinked at `/dev/fb0`, which `stat` takes for a device, is no directory. -/
def KeepsTree (pids : List Nat) (v : Vfs) (call : VfsCall) : Prop :=
  (∀ p, call.creates = some p → findNode v p = none → ParentOk v pids p) ∧
    match call with
    | .rename c oldpath newpath =>
        ∀ a n, renameTarget v c oldpath newpath = some a → v.node a = some n →
          ParentOk v pids (c.resolve newpath) ∧
            (n.dirBit = true → isBelow (c.resolve oldpath) (c.resolve newpath) = false)
    | .unlink c path =>
        c.resolve path = devFb0 →
          ∀ a n, findNode v devFb0 = some a → v.node a = some n → isDirNode n = false
    | _ => True

/-- No path of the list is longer than a node can hold. -/
def ShortPaths (v : Vfs) : Prop :=
  ∀ a ∈ v.nodes, ∀ n, v.node a = some n → n.path.length ≤ 255

section Keep

variable {v v' : Vfs} {pids : List Nat}

/-- A tree stays one when every path of the list had its parent before, and
every directory is kept or is no parent any more. -/
theorem IsTree.of_kept
    (hpath : ∀ x ∈ v'.nodes, ∀ m, v'.node x = some m → ParentOk v pids m.path)
    (hdir : ∀ b ∈ v.nodes, ∀ n, v.node b = some n → isDirNode n = true →
      (b ∈ v'.nodes ∧ ∃ n', v'.node b = some n' ∧ n'.path = n.path ∧ n'.mode = n.mode) ∨
        ∀ x ∈ v'.nodes, ∀ m, v'.node x = some m → pathParentDir m.path ≠ n.path) :
    IsTree pids v' := by
  intro x hx m hm
  rcases hpath x hx m hm with hroot | ⟨b, hb, n, hn, hp, hd⟩ | hsynth
  · exact .inl hroot
  · rcases hdir b hb n hn hd with ⟨hb', n', hn', hp', hmode⟩ | hno
    · refine .inr (.inl ⟨b, hb', n', hn', hp'.trans hp, ?_⟩)
      rw [← hd, isDirNode, isDirNode, Node.dirBit, Node.dirBit, isSymlinkNode, isSymlinkNode, hmode]
    · exact absurd hp.symm (hno x hx m hm)
  · exact .inr (.inr hsynth)

/-- The listed nodes keep their paths and modes. -/
def NamesKept (v v' : Vfs) : Prop :=
  ∀ x ∈ v.nodes, (v'.node x).map (fun n => (n.path, n.mode)) =
    (v.node x).map fun n => (n.path, n.mode)

theorem NamesKept.forward {x : Nat} {n : Node} (h : NamesKept v v') (hx : x ∈ v.nodes)
    (hn : v.node x = some n) :
    ∃ n', v'.node x = some n' ∧ n'.path = n.path ∧ n'.mode = n.mode := by
  have hk := h x hx
  rw [hn, Option.map_some, Option.map_eq_some_iff] at hk
  obtain ⟨n', hn', he⟩ := hk
  exact ⟨n', hn', (Prod.ext_iff.mp he).1, (Prod.ext_iff.mp he).2⟩

theorem NamesKept.back {x : Nat} {m : Node} (h : NamesKept v v') (hx : x ∈ v.nodes)
    (hm : v'.node x = some m) : ∃ n, v.node x = some n ∧ m.path = n.path := by
  have hk := (h x hx).symm
  rw [hm, Option.map_some, Option.map_eq_some_iff] at hk
  obtain ⟨n, hn, he⟩ := hk
  exact ⟨n, hn, (Prod.ext_iff.mp he).1.symm⟩

/-- The two invariants of a run. -/
def TreeInv (pids : List Nat) (v : Vfs) : Prop := IsTree pids v ∧ ShortPaths v

theorem TreeInv.of_same (h : TreeInv pids v) (hnodes : v'.nodes = v.nodes) (hk : NamesKept v v') :
    TreeInv pids v' := by
  constructor
  · refine .of_kept (v := v) (fun x hx m hm => ?_) fun b hb n hn _ => .inl ?_
    · obtain ⟨n, hn, hp⟩ := hk.back (hnodes ▸ hx) hm
      exact hp ▸ h.1 x (hnodes ▸ hx) n hn
    · exact ⟨hnodes ▸ hb, hk.forward hb hn⟩
  · intro x hx m hm
    obtain ⟨n, hn, hp⟩ := hk.back (hnodes ▸ hx) hm
    exact hp ▸ h.2 x (hnodes ▸ hx) n hn

/-- A new node below a directory that exists. -/
theorem TreeInv.cons {a : Nat} {n : Node} (h : TreeInv pids v) (hnodes : v'.nodes = a :: v.nodes)
    (hk : NamesKept v v') (ha : v'.node a = some n) (hp : ParentOk v pids n.path)
    (hlen : n.path.length ≤ 255) : TreeInv pids v' := by
  have hcases : ∀ x ∈ v'.nodes, x = a ∨ x ∈ v.nodes := by
    intro x hx
    rwa [hnodes, List.mem_cons] at hx
  constructor
  · refine .of_kept (v := v) (fun x hx m hm => ?_) fun b hb n hn _ => .inl ?_
    · rcases hcases x hx with rfl | hx
      · rw [ha, Option.some.injEq] at hm
        exact hm ▸ hp
      · obtain ⟨n', hn', hp'⟩ := hk.back hx hm
        exact hp' ▸ h.1 x hx n' hn'
    · exact ⟨hnodes ▸ List.mem_cons_of_mem _ hb, hk.forward hb hn⟩
  · intro x hx m hm
    rcases hcases x hx with rfl | hx
    · rw [ha, Option.some.injEq] at hm
      exact hm ▸ hlen
    · obtain ⟨n', hn', hp'⟩ := hk.back hx hm
      exact hp' ▸ h.2 x hx n' hn'

/-- A node that is no directory, or one with nothing below it, goes. -/
theorem TreeInv.erase {a : Nat} {n : Node} (h : TreeInv pids v) (hnd : v.nodes.Nodup)
    (hn : v.node a = some n) (hnodes : v'.nodes = v.nodes.erase a)
    (hnode : ∀ x, x ≠ a → v'.node x = v.node x)
    (hfree : isDirNode n = false ∨
      ∀ x ∈ v.nodes, ∀ m, v.node x = some m → isBelow n.path m.path = false)
    (hroot : n.path ≠ [slash]) : TreeInv pids v' := by
  have hmem : ∀ x ∈ v'.nodes, x ≠ a ∧ x ∈ v.nodes := by
    intro x hx
    rwa [hnodes, hnd.mem_erase_iff] at hx
  constructor
  · refine .of_kept (v := v) (fun x hx m hm => ?_) fun b hb m hm hd => ?_
    · obtain ⟨hxa, hx⟩ := hmem x hx
      exact h.1 x hx m (hnode x hxa ▸ hm)
    · by_cases hba : b = a
      · subst hba
        rw [hn, Option.some.injEq] at hm
        subst hm
        rcases hfree with hnd' | hempty
        · rw [hd] at hnd'
          cases hnd'
        · refine .inr fun x hx m hm hpar => ?_
          obtain ⟨hxa, hx⟩ := hmem x hx
          rw [hnode x hxa] at hm
          rcases pathParentDir_below m.path with hs | hb
          · exact hroot (hpar.symm.trans hs)
          · rw [hpar, hempty x hx m hm] at hb
            cases hb
      · refine .inl ⟨?_, m, (hnode b hba).trans hm, rfl, rfl⟩
        rw [hnodes, hnd.mem_erase_iff]
        exact ⟨hba, hb⟩
  · intro x hx m hm
    obtain ⟨hxa, hx⟩ := hmem x hx
    exact h.2 x hx m (hnode x hxa ▸ hm)

end Keep

/-! ## Moving a directory -/

/-- A link is no directory: the two mode bits exclude each other. -/
theorem isDirNode_eq (n : Node) : isDirNode n = n.dirBit := by
  unfold isDirNode
  by_cases hl : isSymlinkNode n
  · have hmode : n.mode &&& 0xF000 = 0xA000 := of_decide_eq_true hl
    have hbit : n.mode &&& sIfdir = 0 := by
      show n.mode &&& 0x4000 = 0
      rw [show (0x4000 : Nat) = 0xF000 &&& 0x4000 from rfl, ← Nat.and_assoc, hmode]
      rfl
    simp [Node.dirBit, hbit]
  · simp [hl]

/-- The name of a `/proc/<pid>` directory has no slash. -/
theorem pidLookup_dir {pids : List Nat} {rest : CStr} {sid : SynthId}
    (h : pidLookup pids rest = some sid) (hd : sid.isDir = true) (k : Nat) :
    rest[k]? ≠ some slash := by
  unfold pidLookup at h
  dsimp only at h
  split at h
  · cases h
  · split at h
    · cases h
    · split at h
      · rename_i hnil
        -- nothing follows the digits, so all of `rest` was taken
        have hlen := List.drop_eq_nil_iff.mp hnil
        have hall : rest.takeWhile (· ≠ slash) = rest := by
          refine (List.takeWhile_prefix _).eq_of_length_le ?_
          exact Nat.le_trans hlen (List.length_take_le' _ _)
        intro hk
        have hmem : slash ∈ rest.takeWhile (· ≠ slash) := by
          rw [hall]
          exact List.mem_of_getElem? hk
        have hne := List.mem_takeWhile_imp hmem
        simp at hne
      · split at h
        · obtain ⟨slot, _, rfl⟩ := Option.map_eq_some_iff.mp h
          cases hd
        · cases h

/-- What is above a synthetic directory is synthetic. -/
theorem synthLookup_above {pids : List Nat} {dir d : CStr} {sid : SynthId} (hdir : dir ≠ [])
    (hs : synthLookup pids d = some sid) (hd : sid.isDir = true) (hb : isBelow dir d) :
    (synthLookup pids dir).isSome := by
  obtain ⟨htake, hslash⟩ := isBelow_iff.mp hb
  have hpos : dir.length ≠ 0 := mt List.length_eq_zero_iff.mp hdir
  have hlt : dir.length < d.length := (List.getElem?_eq_some_iff.mp hslash).1
  rw [← htake]
  generalize dir.length = k at *
  -- where the slashes of the fixed paths are
  have hproc : ∀ k < 10, (str "/proc/net")[k]? = some slash → k = 0 ∨ k = 5 := by decide
  have hshort : ∀ k < 5, (str "/proc")[k]? = some slash → k = 0 := by decide
  have hsys : ∀ d ∈ sysDirs, ∀ k < d.length, d[k]? = some slash → k = 0 ∨ d.take k ∈ sysDirs := by
    decide
  have hfixed : ∀ e ∈ sysDirs, (synthLookup pids e).isSome = true := by
    intro e he
    simp only [sysDirs, List.mem_cons, List.not_mem_nil, or_false] at he
    rcases he with rfl | rfl | rfl | rfl | rfl <;> rfl
  unfold synthLookup at hs
  split at hs
  · cases hs
  · split at hs
    · rename_i hd'
      rcases hd' with rfl | rfl
      · exact absurd (hshort k hlt hslash) hpos
      · rcases hproc k (Nat.lt_succ_of_lt hlt) hslash with hk | rfl
        · exact absurd hk hpos
        · rfl
    · split at hs
      · rename_i hpre
        dsimp only at hs
        split at hs
        · cases hs
          cases hd
        · have hsplit : d = str "/proc/" ++ d.drop 6 := by
            conv_lhs => rw [← List.take_append_drop 6 d, hpre]
          by_cases hk : k < 6
          · have hk5 : k = 5 := by
              rw [hsplit, List.getElem?_append_left hk] at hslash
              have hfix : ∀ k < 6, (str "/proc/")[k]? = some slash → k = 0 ∨ k = 5 := by decide
              exact (hfix k hk hslash).resolve_left hpos
            subst hk5
            rw [hsplit]
            rfl
          · rw [hsplit, List.getElem?_append_right (Nat.le_of_not_lt hk)] at hslash
            exact absurd hslash (pidLookup_dir hs hd _)
      · unfold sysLookup at hs
        split at hs
        · rename_i slot hslot
          have hmem : d ∈ sysDirs := List.isSome_idxOf?.mp (by rw [hslot]; rfl)
          exact hfixed _ ((hsys d hmem k hlt hslash).resolve_left hpos)
        · dsimp only at hs
          split at hs
          · obtain ⟨slot, _, rfl⟩ := Option.map_eq_some_iff.mp hs
            cases hd
          · cases hs

section Move

variable {v v' : Vfs} {pids : List Nat} {a : Nat} {old new : CStr} {n : Node}

/-- A directory that is a parent of a path outside stays where it is. -/
theorem movedPath_parent {b : Nat} {m : Node} {p : CStr} (ha : v.node a = some n)
    (hap : n.path = old) (hm : v.node b = some m) (hdir : isDirNode m = true)
    (hpar : m.path = pathParentDir p) (hroot : pathParentDir p ≠ [slash])
    (hout : n.dirBit = true → isBelow old p = false) :
    movedPath v a n.dirBit old new b m.path = m.path := by
  have hbelow : isBelow (pathParentDir p) p = true := (pathParentDir_below p).resolve_left hroot
  have hba : b ≠ a := by
    rintro rfl
    rw [ha, Option.some.injEq] at hm
    subst hm
    rw [isDirNode_eq] at hdir
    rw [← hpar, hap, hout hdir] at hbelow
    cases hbelow
  unfold movedPath
  rw [if_neg hba, if_neg]
  rintro ⟨hd, _, hb⟩
  rw [hpar] at hb
  have hp := isBelow_trans hb hbelow
  rw [hout hd] at hp
  cases hp

/-- The parents of what is outside the moved directory are kept. -/
theorem ParentOk.moved_outside (new : CStr) {p : CStr} (h : ParentOk v pids p) (ha : v.node a = some n)
    (hap : n.path = old) (hout : n.dirBit = true → isBelow old p = false) :
    ParentOk { v with
      node := fun x => (v.node x).map fun m =>
        { m with path := movedPath v a n.dirBit old new x m.path } } pids p := by
  by_cases hroot : pathParentDir p = [slash]
  · exact .inl hroot
  rcases h with hr | ⟨b, hb, m, hm, hpar, hdir⟩ | hsynth
  · exact .inl hr
  · refine .inr (.inl ⟨b, hb, { m with path := movedPath v a n.dirBit old new b m.path }, ?_, ?_, ?_⟩)
    · simp only [hm, Option.map_some]
    · exact (movedPath_parent ha hap hm hdir hpar hroot hout).trans hpar
    · exact hdir
  · exact .inr (.inr hsynth)

/-- Above a path that is below a directory of the list, the list holds a
directory at every slash that has a name behind it. -/
theorem TreeInv.listed_above (h : TreeInv pids v) (hold : old ≠ [] ∧ old ≠ [slash] ∧ synthLookup pids old = none)
    {i : Nat} (hi : old.length ≤ i) : ∀ {len x : Nat} {m : Node}, m.path.length = len → x ∈ v.nodes →
      v.node x = some m → m.path.take old.length = old → m.path[old.length]? = some slash →
      m.path[i]? = some slash → m.path[i + 1]? ≠ some slash → i + 1 < m.path.length →
      ∃ b ∈ v.nodes, ∃ k, v.node b = some k ∧ k.path = m.path.take i ∧ isDirNode k = true := by
  have hpos : 0 < old.length := List.length_pos_iff.mpr hold.1
  intro len
  induction len using Nat.strong_induction_on with
  | _ len ih =>
  intro x m hlen hx hm hbelow hslash hs hname hlt
  obtain ⟨last, hle, hlast, hsl, hpar⟩ :=
    pathParentDir_ge (h.2 x hx m hm) (Nat.lt_of_lt_of_le hpos hi) hs hname hlt
  have htake : (m.path.take last).take old.length = old := by
    rw [List.take_take, Nat.min_eq_left (Nat.le_trans hi hle), hbelow]
  have hparent := h.1 x hx m hm
  rw [ParentOk, hpar] at hparent
  rcases hparent with hroot | ⟨b, hb, k, hk, hkp, hkd⟩ | ⟨sid, hsid, hsd⟩
  · -- the path of a directory that can be moved is longer than the root's
    rw [hroot] at htake
    have hone : old = [slash] := by
      rw [← htake]
      exact List.take_of_length_le hpos
    exact absurd hone hold.2.1
  · rcases Nat.eq_or_lt_of_le hle with rfl | hilast
    · exact ⟨b, hb, k, hk, hkp, hkd⟩
    · -- the parent is longer, and below `old` as well
      have hget {j : Nat} (hj : j < last) : k.path[j]? = m.path[j]? := by
        rw [hkp, List.getElem?_take_of_lt hj]
      have hklen : k.path.length = last := by
        rw [hkp, List.length_take, Nat.min_eq_left (Nat.le_of_lt hlast)]
      have hnext : i + 1 ≠ last := fun he => hname (he ▸ hsl)
      obtain ⟨b', hb', k', hk', hkp', hkd'⟩ := ih last (hlen ▸ hlast) hklen hb hk (hkp ▸ htake)
        ((hget (Nat.lt_of_le_of_lt hi hilast)).trans hslash) ((hget hilast).trans hs)
        (by rwa [hget (by omega)]) (by omega)
      refine ⟨b', hb', k', hk', hkp'.trans ?_, hkd'⟩
      rw [hkp, List.take_take, Nat.min_eq_left hle]
  · -- nothing synthetic is at or below it
    exfalso
    rcases Nat.eq_or_lt_of_le (Nat.le_trans hi hle) with he | hlt'
    · rw [← he, hbelow, hold.2.2] at hsid
      exact nomatch hsid
    · have hb : isBelow old (m.path.take last) = true :=
        isBelow_iff.mpr ⟨htake, (List.getElem?_take_of_lt hlt').trans hslash⟩
      have habove := synthLookup_above hold.1 hsid hsd hb
      rw [hold.2.2] at habove
      exact nomatch habove

/-- A path below the moved directory keeps its rest, as far as there is room. -/
theorem movedPath_inside {x : Nat} {m : Node} (ha : v.node a = some n) (hap : n.path = old) (hnew : new.length ≤ 255)
    (hx : x ∈ v.nodes) (hm : v.node x = some m) (hd : n.dirBit = true) (hb : isBelow old m.path = true) :
    movedPath v a n.dirBit old new x m.path = new ++ (m.path.drop old.length).take (255 - new.length) := by
  have hxa : x ≠ a := by
    rintro rfl
    rw [ha, Option.some.injEq] at hm
    rw [← hm, hap, not_isBelow_self] at hb
    cases hb
  rw [hd, movedPath_dir hx hxa, if_pos hb, rebase_eq hnew, List.take_append, List.take_of_length_le hnew]

/-- Where a path below the moved directory has a slash with a name behind it,
a directory moves to what is in front of the slash. -/
theorem TreeInv.moved_above (h : TreeInv pids v) (ha : v.node a = some n) (han : a ∈ v.nodes) (hap : n.path = old)
    (hold : old ≠ [] ∧ old ≠ [slash] ∧ synthLookup pids old = none) (hnew : new.length ≤ 255) {x j : Nat} {m : Node}
    (hx : x ∈ v.nodes) (hm : v.node x = some m) (hd : n.dirBit = true) (hb : isBelow old m.path = true)
    (hroom : j < 255 - new.length) (hs : m.path[old.length + j]? = some slash)
    (hname : m.path[old.length + j + 1]? ≠ some slash) (hlt : old.length + j + 1 < m.path.length) :
    ∃ b ∈ v.nodes, ∃ k, v.node b = some k ∧
      movedPath v a n.dirBit old new b k.path = new ++ (m.path.drop old.length).take j ∧ isDirNode k = true := by
  obtain ⟨htake, hslash⟩ := isBelow_iff.mp hb
  obtain ⟨b, hb', mb, hmb, hpb, hdb⟩ :=
    h.listed_above hold (Nat.le_add_right old.length j) rfl hx hm htake hslash hs hname hlt
  cases j with
  | zero =>
      -- the directory itself
      refine ⟨a, han, n, ha, ?_, (isDirNode_eq n).trans hd⟩
      rw [movedPath_self hnew, List.take_zero, List.append_nil]
  | succ j =>
      -- one below it, which moves along
      have hsplit : mb.path = old ++ (m.path.drop old.length).take (j + 1) := by
        rw [hpb, List.take_add, htake]
      have hbb : isBelow old mb.path = true := by
        refine isBelow_iff.mpr ⟨?_, ?_⟩
        · rw [hsplit, List.take_left']
          rfl
        · rw [hpb, List.getElem?_take_of_lt (by omega)]
          exact hslash
      refine ⟨b, hb', mb, hmb, ?_, hdb⟩
      rw [movedPath_inside ha hap hnew hb' hmb hd hbb, hsplit, List.drop_left, List.take_take,
        Nat.min_eq_right (Nat.le_of_lt hroom)]

/-- The parents of what is below the moved directory move along. -/
theorem TreeInv.moved_inside (h : TreeInv pids v) (ha : v.node a = some n) (han : a ∈ v.nodes) (hap : n.path = old)
    (hold : old ≠ [] ∧ old ≠ [slash] ∧ synthLookup pids old = none) (hnew : new ≠ [] ∧ new.length ≤ 255)
    {x : Nat} {m : Node} (hx : x ∈ v.nodes) (hm : v.node x = some m) (hd : n.dirBit = true)
    (hb : isBelow old m.path = true)
    (hok : ParentOk { v with
      node := fun x => (v.node x).map fun m =>
        { m with path := movedPath v a n.dirBit old new x m.path } } pids new) :
    ParentOk { v with
      node := fun x => (v.node x).map fun m =>
        { m with path := movedPath v a n.dirBit old new x m.path } } pids
      (new ++ (m.path.drop old.length).take (255 - new.length)) := by
  rcases Nat.lt_or_ge new.length 255 with hroom | hfull
  · have hdrop {t : Nat} (ht : t < 255 - new.length) :
        ((m.path.drop old.length).take (255 - new.length))[t]? = m.path[old.length + t]? := by
      rw [List.getElem?_take_of_lt ht, List.getElem?_drop]
    -- what is left of the rest starts with its slash
    have hs : ((m.path.drop old.length).take (255 - new.length))[0]? = some slash :=
      (hdrop (Nat.sub_pos_of_lt hroom)).trans (isBelow_iff.mp hb).2
    have hlen : (new ++ (m.path.drop old.length).take (255 - new.length)).length ≤ 255 := by
      rw [List.length_append, List.length_take]
      omega
    rcases pathParentDir_append hs hnew.1 hlen with ⟨_, hpar⟩ | ⟨k, j, hk, hj, hpar⟩
    · -- slashes only: the parent is that of the directory itself
      unfold ParentOk
      rw [hpar]
      exact hok
    · obtain ⟨hjk, hjs⟩ := lastSlash_some hj
      obtain ⟨-, hkle⟩ := stripRest_pos hk
      have hklast := stripRest_last hk
      have hjlt : j < k := by
        have hne : j ≠ k := fun he => hklast (he ▸ hjs)
        omega
      rw [List.length_take, List.length_drop] at hkle
      have hjroom : j < 255 - new.length := by omega
      -- the slash is one of the old path, with a name behind it
      have hjname : m.path[old.length + j + 1]? ≠ some slash := by
        rw [Nat.add_assoc, ← hdrop (by omega)]
        rcases Nat.eq_or_lt_of_le (Nat.succ_le_of_lt hjlt) with rfl | hlt
        · exact hklast
        · exact lastSlash_last hj (Nat.lt_succ_self j) (by omega)
      obtain ⟨b, hb', k', hk', hpath, hdir⟩ := h.moved_above ha han hap hold hnew.2 hx hm hd hb hjroom
        ((hdrop hjroom).symm.trans hjs) hjname (by omega)
      refine .inr (.inl ⟨b, hb', { k' with path := movedPath v a n.dirBit old new b k'.path }, ?_, ?_, hdir⟩)
      · simp only [hk', Option.map_some]
      · rw [hpar, List.take_take, Nat.min_eq_left (Nat.le_of_lt hjroom)]
        exact hpath
  · -- no room: only the new path itself is left
    rw [Nat.sub_eq_zero_of_le hfull, List.take_zero, List.append_nil]
    exact hok

/-- A rename below an existing directory keeps the tree. -/
theorem TreeInv.renamed (h : TreeInv pids v) (ha : v.node a = some n) (han : a ∈ v.nodes)
    (hap : n.path = old) (hold : old ≠ [] ∧ old ≠ [slash] ∧ synthLookup pids old = none)
    (hnew : new ≠ [] ∧ new.length ≤ 255) (hok : ParentOk v pids new)
    (hmove : n.dirBit = true → isBelow old new = false) :
    TreeInv pids { v with
      node := fun x => (v.node x).map fun m =>
        { m with path := movedPath v a n.dirBit old new x m.path } } := by
  have hnewOk := hok.moved_outside new ha hap hmove
  constructor
  · intro x hx m' hm'
    obtain ⟨m, hm, rfl⟩ := Option.map_eq_some_iff.mp hm'
    show ParentOk _ pids (movedPath v a n.dirBit old new x m.path)
    by_cases hxa : x = a
    · rw [hxa, movedPath_self hnew.2]
      exact hnewOk
    by_cases hin : n.dirBit = true ∧ isBelow old m.path = true
    · rw [movedPath_inside ha hap hnew.2 hx hm hin.1 hin.2]
      exact h.moved_inside ha han hap hold hnew hx hm hin.1 hin.2 hnewOk
    · have hout : n.dirBit = true → isBelow old m.path = false := fun hd =>
        Bool.eq_false_iff.mpr fun hb => hin ⟨hd, hb⟩
      have hstay : movedPath v a n.dirBit old new x m.path = m.path := by
        unfold movedPath
        rw [if_neg hxa, if_neg fun hc => hin ⟨hc.1, hc.2.2⟩]
      rw [hstay]
      exact (h.1 x hx m hm).moved_outside new ha hap hout
  · intro x hx m' hm'
    obtain ⟨m, hm, rfl⟩ := Option.map_eq_some_iff.mp hm'
    exact movedPath_length (h.2 x hx m hm)

end Move

/-! ## Steps and runs -/

section TreeSteps

variable {v v' : Vfs} {pids : List Nat}

/-- What `sys_unlink` removes is no directory, or is at `/dev/fb0`. -/
theorem sysUnlink_effect {c : Caller} {path : CStr} {ret : Int}
    (h : sysUnlink v c path = .ret (v', ret)) :
    v' = v ∨ ∃ a n, unlinkTarget v c path = some a ∧ findNode v (c.resolve path) = some a ∧
      v.node a = some n ∧ unlinkNode v a = .ret v' ∧
      (isDirNode n = false ∨ c.resolve path = devFb0) := by
  obtain ⟨st, hst, h⟩ := Exec.bind_eq_ret.mp h
  split at h
  · cases h
    exact .inl rfl
  · rename_i hany
    rcases vfsUnlink_effect h with ⟨_, hv⟩ | ⟨a, ha, hu⟩
    · exact .inl hv
    · refine .inr ?_
      have hchecks := ha
      unfold unlinkTarget at hchecks
      split at hchecks
      · cases hchecks
      · rename_i hno
        rw [not_or, Option.not_isSome_iff_eq_none] at hno
        have hfind : findNode v (c.resolve path) = some a := by
          rw [findNode, if_neg hno.2]
          exact hchecks
        obtain ⟨n, hun⟩ := unlinkNode_ret hu
        refine ⟨a, n, ha, hfind, hun.live, hu, ?_⟩
        by_cases hfb : c.resolve path = devFb0
        · exact .inr hfb
        · refine .inl ?_
          have hpath : n.path = c.resolve path := by
            have hp := (findNode_path hfind hno.2).2
            rw [Vfs.path, hun.live, Option.map_some, Option.some.injEq] at hp
            exact hp
          unfold vfsLstat at hst
          dsimp only at hst
          rw [hno.1] at hst
          dsimp only at hst
          rw [hfind] at hst
          obtain ⟨n', hn', hst⟩ := Exec.bind_eq_ret.mp hst
          obtain rfl : n = n' := Option.some.inj (hun.live.symm.trans (Vfs.load_ret hn'))
          cases hst
          rw [fillStat, if_neg (fun hp => hfb (hpath.symm.trans hp))] at hany
          by_contra hd
          rw [Bool.not_eq_false, isDirNode, Bool.and_eq_true, Bool.not_eq_true'] at hd
          exact hany (decide_eq_true ⟨of_decide_eq_true hd.1, of_decide_eq_false hd.2⟩)

theorem tree_effect {call : VfsCall} (hfresh : ∀ a, v.nextObj ≤ a → v.node a = none)
    (h : treeCall v call = .ret v') : CallEffect v v' call := by
  cases call with
  | unlink c path =>
      obtain ⟨⟨w, r⟩, hw, h⟩ := Exec.bind_eq_ret.mp h
      cases h
      rcases sysUnlink_effect hw with rfl | ⟨a, n, ha, _, _, hu, _⟩
      · exact .idle (.refl _)
      · exact .unlinked ha (unlinkTarget_listed ha) hu
  | _ => exact call_effect hfresh h

theorem NamesKept.of_node (h : ∀ x ∈ v.nodes, v'.node x = v.node x) : NamesKept v v' :=
  fun x hx => by rw [h x hx]

theorem NamesKept.setNode {a : Nat} {n n' : Node} (hn : v.node a = some n) (hp : n'.path = n.path)
    (hm : n'.mode = n.mode) : NamesKept v (v.setNode a n') := by
  intro x _
  simp only [Vfs.setNode, Function.update_apply]
  split
  · rename_i hx
    rw [hx, hn, Option.map_some, Option.map_some, hp, hm]
  · rfl

theorem NamesKept.of_sameNames (h : SameNames v v') : NamesKept v v' := by
  intro x _
  have hx := congrArg (Option.map fun l : Label => (l.path, l.mode)) (congrFun h.label x)
  simp only [Vfs.label, Option.map_map] at hx
  exact hx

theorem creates_length {call : VfsCall} {p : CStr} (h : call.creates = some p) :
    p.length ≤ 255 := by
  cases call with
  | openPath c path flags =>
      simp only [VfsCall.creates] at h
      split at h
      · cases h
        exact vfsResolvePath_length _ _
      · cases h
  | mkdir c path =>
      cases h
      exact vfsResolvePath_length _ _
  | link c path targetPath =>
      cases h
      exact vfsResolvePath_length _ _
  | symlink c target linkpath =>
      cases h
      exact vfsResolvePath_length _ _
  | _ => cases h

theorem ShortPaths.step {call : VfsCall} (h : ShortPaths v) (ht : NodeTable v)
    (hs : vfsCall v call = .ret v') : ShortPaths v' := by
  intro x hx m hm
  have hp : v'.path x = some m.path := by rw [Vfs.path, hm, Option.map_some]
  have hold : ∀ {p : CStr}, x ∈ v.nodes → v.path x = some p → p.length ≤ 255 := by
    intro p hx hp
    obtain ⟨n, hn, rfl⟩ := Option.map_eq_some_iff.mp hp
    exact h x hx n hn
  generalize m.path = p at hp ⊢
  cases listed_path ht hs hx hp with
  | kept hx hp => exact hold hx hp
  | created _ hcreates => exact creates_length hcreates
  | moved _ hx hq => exact movedPath_length (hold hx hq)

theorem ShortPaths.of_reach (h : vfsSystem.Reach v) : ShortPaths v := by
  refine (System.ReachVia.invariant (I := fun v => NodeTable v ∧ ShortPaths v) ?_ ?_ h).2
  · rintro w hw
    refine ⟨.of_boot hw, ?_⟩
    obtain ⟨mem, fb, rfl⟩ := hw
    intro a ha
    cases ha
  · exact fun w call w' ⟨ht, hsp⟩ _ hs => ⟨ht.step hs, hsp.step ht hs⟩

/-- A call that meets its condition keeps the tree. -/
theorem TreeInv.step {call : VfsCall} (ht : NodeTable v) (h : TreeInv pids v)
    (hg : KeepsTree pids v call) (hpids : ∀ c, call.caller = some c → c.pids = pids)
    (hs : treeCall v call = .ret v') : TreeInv pids v' := by
  have hfresh : ∀ {a}, v.nextObj ≤ a → ∀ x ∈ v.nodes, x ≠ a := by
    intro a ha x hx
    obtain ⟨m, hm, _⟩ := ht.listed x hx
    exact Nat.ne_of_lt (Nat.lt_of_lt_of_le (ht.lt_supply hm) ha)
  -- a removal is told from the rest by the call itself
  have hremove : ∀ {a}, unlinkNode v a = .ret v' → a ∈ v.nodes → ∀ {path},
      findNode v path = some a → path ≠ [slash] →
      (∀ n, v.node a = some n → isDirNode n = false ∨
        ∀ x ∈ v.nodes, ∀ m, v.node x = some m → isBelow path m.path = false) →
      TreeInv pids v' := by
    intro a hu han path hfind hroot hfree
    obtain ⟨n, hun⟩ := unlinkNode_ret hu
    have hpath : n.path = path := by
      have hp := (findNode_path hfind hroot).2
      rw [Vfs.path, hun.live, Option.map_some, Option.some.injEq] at hp
      exact hp
    refine h.erase ht.nodup hun.live hun.nodes (fun x hxa => ?_) (hpath ▸ hfree n hun.live)
      (hpath ▸ hroot)
    rw [hun.node, Function.update_of_ne hxa]
  cases tree_effect ht.fresh hs with
  | idle hid => exact h.of_same hid.nodes (.of_node fun x _ => by rw [hid.node])
  | opened hn _ hv =>
      subst hv
      exact h.of_same rfl (.setNode hn (by rfl) (by rfl))
  | @made _ a n hm hp =>
      have hk : NamesKept v v' := .of_node fun x hx => by
        rw [hm.node, Function.update_of_ne (hfresh hm.fresh.1 x hx)]
      cases hsy : n.synth with
      | true => exact h.of_same (by rw [hm.nodes, hsy]; rfl) hk
      | false =>
          refine h.cons (a := a) (n := n) (by rw [hm.nodes, hsy]; rfl) hk
            (by rw [hm.node, Function.update_self]) ?_ (creates_length (hp hsy))
          exact hg.1 _ (hp hsy) (hm.absent hsy)
  | @linked c path targetPath a target k n t hl hp =>
      have hk : NamesKept v v' := by
        intro x hx
        rw [hl.node, Function.update_of_ne (hfresh hl.fresh.1 x hx)]
        have hset : NamesKept v (v.setNode target { t with dataRefs := some k }) :=
          .setNode hl.live rfl rfl
        exact hset x hx
      have hcreates : (VfsCall.link c path targetPath).creates = some n.path :=
        congrArg some hp.symm
      exact h.cons hl.nodes hk (by rw [hl.node, Function.update_self])
        (hg.1 _ hcreates hl.absent) (creates_length hcreates)
  | wrote hw =>
      have hsame := SameNames.of_vfsWrite hw
      exact h.of_same hsame.nodes (.of_sameNames hsame)
  | truncated hw =>
      have hsame := SameNames.of_vfsTruncate hw
      exact h.of_same hsame.nodes (.of_sameNames hsame)
  | @closed a ret hc =>
      obtain ⟨n, hn, ⟨k, rfl⟩ | ⟨hsynth, _, _, hnodes, hnode, _⟩⟩ := vfsClose_ret hc
      · exact h.of_same rfl (.setNode hn (by rfl) (by rfl))
      · refine h.of_same hnodes (.of_node fun x hx => ?_)
        obtain ⟨m, hxm, hms⟩ := ht.listed x hx
        have hxa : x ≠ a := by
          rintro rfl
          rw [hn, Option.some.injEq] at hxm
          rw [hxm, hms] at hsynth
          cases hsynth
        rw [hnode, Function.update_of_ne hxa]
  | @unlinked _ a hrem han hu =>
      cases call with
      | unlink c path =>
          obtain ⟨⟨w, r⟩, hw, hs⟩ := Exec.bind_eq_ret.mp hs
          cases hs
          rcases sysUnlink_effect hw with rfl | ⟨b, n, hb, hfind, hn, hub, hdir⟩
          · exact h
          · have hba : b = a := Option.some.inj (hb.symm.trans hrem)
            subst hba
            have hroot : c.resolve path ≠ [slash] := by
              intro hr
              rw [VfsCall.removes, unlinkTarget, if_pos (.inr hr)] at hrem
              cases hrem
            refine hremove hu han hfind hroot fun m hm => .inl ?_
            rw [hn, Option.some.injEq] at hm
            subst hm
            rcases hdir with hd | hfb
            · exact hd
            · exact hg.2 hfb b n (hfb ▸ hfind) hn
      | rmdir c path =>
          simp only [VfsCall.removes, rmdirTarget] at hrem
          split at hrem
          · rename_i hchecks
            have hfind : findNode v (c.resolve path) = some a := by
              unfold unlinkTarget at hrem
              split at hrem
              · cases hrem
              · rw [findNode, if_neg hchecks.1]
                exact hrem
            refine hremove hu han hfind hchecks.1 fun n _ => .inr fun x hx m hm => ?_
            by_contra hb
            refine hchecks.2.1 (List.any_eq_true.mpr ⟨x, hx, ?_⟩)
            rw [hm]
            simpa using hb
          · cases hrem
      | _ => cases hrem
  | @renamed c oldpath newpath a ret ha hr =>
      obtain ⟨n, hn, rfl⟩ := renameNode_ret hr
      have hg' := hg.2 a n ha hn
      obtain ⟨_, _, han, hold⟩ := renameTarget_some ha
      rw [Vfs.path, hn, Option.map_some, Option.some.injEq] at hold
      have hchecks : synthLookup c.pids (c.resolve oldpath) = none ∧
          c.resolve oldpath ≠ [slash] := by
        unfold renameTarget at ha
        dsimp only at ha
        split at ha
        · cases ha
        · rename_i hno
          simp only [not_or, Option.not_isSome_iff_eq_none] at hno
          exact ⟨hno.1, hno.2.2.1⟩
      exact h.renamed hn han hold
        ⟨vfsResolvePath_ne_nil _ _, hchecks.2, hpids c rfl ▸ hchecks.1⟩
        ⟨vfsResolvePath_ne_nil _ _, vfsResolvePath_length _ _⟩ hg'.1 hg'.2

end TreeSteps

/-- As long as the callers make and move nodes below directories that
exist, every state of the run is a tree. -/
theorem tree_while_parents_exist {pids : List Nat} {v : Vfs}
    (h : (treeSystem pids).ReachVia (KeepsTree pids) v) : IsTree pids v := by
  have hinv : NodeTable v ∧ TreeInv pids v := by
    refine System.ReachVia.invariant (I := fun v => NodeTable v ∧ TreeInv pids v) ?_ ?_ h
    · intro w hw
      refine ⟨.of_boot hw, ?_⟩
      obtain ⟨mem, fb, rfl⟩ := hw
      exact ⟨fun a ha => by simp [emptyVfs] at ha, fun a ha => by simp [emptyVfs] at ha⟩
    · rintro w call w' ⟨ht, hi⟩ hg ⟨hpids, hs⟩
      exact ⟨ht.of_effect (tree_effect ht.fresh hs), hi.step ht hg hpids hs⟩
  exact hinv.2.1

/-- A directory and a file in it. -/
theorem tree_of_two : ∃ v, v.nodes = [2, 1] ∧ IsTree [] v := by
  have hboot : (treeSystem []).ReachVia (KeepsTree []) (emptyVfs (memoryOf 0) none) :=
    .init ⟨_, _, rfl⟩
  have hdir := System.ReachVia.step (e := .mkdir rootCaller (str "/a")) hboot
    ⟨fun p hp _ => by cases hp; exact .inl rfl, trivial⟩ ⟨fun c hc => by cases hc; rfl, rfl⟩
  have hfile := System.ReachVia.step (e := .openPath rootCaller (str "/a/x") 0x40) hdir
    ⟨fun p hp _ => by
      cases hp
      exact .inr (.inl ⟨1, List.mem_cons_self, _, rfl, rfl, rfl⟩), trivial⟩
    ⟨fun c hc => by cases hc; rfl, rfl⟩
  exact ⟨_, rfl, tree_while_parents_exist hfile⟩

/-- In an empty file system `mkdir` makes `/a/b`, and there is no `/a`. -/
theorem mkdir_without_parent : ¬∀ v, (treeSystem []).Reach v → IsTree [] v := by
  intro hall
  have hstep : (treeSystem []).step (emptyVfs (memoryOf 0) none)
      (.mkdir rootCaller (str "/a/b")) _ := ⟨fun c hc => by cases hc; rfl, rfl⟩
  have htree := hall _ (.step (.init ⟨_, _, rfl⟩) trivial hstep)
  rcases htree 1 List.mem_cons_self _ rfl with hroot | ⟨b, hb, n, hn, hp, _⟩ | ⟨sid, hs, _⟩
  · exact absurd hroot (by decide)
  · rcases List.mem_singleton.mp hb with rfl
    cases hn
    exact absurd hp (by decide)
  · exact absurd hs (by decide +revert)

/-! The other two calls that lose the tree: both succeed after a run in which
all calls saw to it. -/

/-- A directory moves below itself, and its parent is gone. -/
theorem rename_below_itself : ∃ v v', (treeSystem []).ReachVia (KeepsTree []) v ∧
    vfsRename v rootCaller (str "/a") (str "/a/b") = .ret (v', 0) ∧ ¬IsTree [] v' := by
  have hboot : (treeSystem []).ReachVia (KeepsTree []) (emptyVfs (memoryOf 0) none) :=
    .init ⟨_, _, rfl⟩
  have hdir := System.ReachVia.step (e := .mkdir rootCaller (str "/a")) hboot
    ⟨fun p hp _ => by cases hp; exact .inl rfl, trivial⟩ ⟨fun c hc => by cases hc; rfl, rfl⟩
  refine ⟨_, _, hdir, rfl, fun htree => ?_⟩
  rcases htree 1 List.mem_cons_self _ rfl with hroot | ⟨b, hb, n, hn, hp, _⟩ | ⟨sid, hs, _⟩
  · exact absurd hroot (by decide)
  · rcases List.mem_singleton.mp hb with rfl
    cases hn
    exact absurd hp (by decide)
  · exact absurd hs (by decide +revert)

/-- A directory at `/dev/fb0` is unlinked with a file in it. -/
theorem unlink_of_directory : ∃ v v', (treeSystem []).ReachVia (KeepsTree []) v ∧
    sysUnlink v rootCaller (str "/dev/fb0") = .ret (v', 0) ∧ ¬IsTree [] v' := by
  have hboot : (treeSystem []).ReachVia (KeepsTree []) (emptyVfs (memoryOf 0) none) :=
    .init ⟨_, _, rfl⟩
  have hdev := System.ReachVia.step (e := .mkdir rootCaller (str "/dev")) hboot
    ⟨fun p hp _ => by cases hp; exact .inl rfl, trivial⟩ ⟨fun c hc => by cases hc; rfl, rfl⟩
  have hdir := System.ReachVia.step (e := .mkdir rootCaller (str "/dev/fb0")) hdev
    ⟨fun p hp _ => by
      cases hp
      exact .inr (.inl ⟨1, List.mem_cons_self, _, rfl, rfl, rfl⟩), trivial⟩
    ⟨fun c hc => by cases hc; rfl, rfl⟩
  have hfile := System.ReachVia.step (e := .openPath rootCaller (str "/dev/fb0/x") 0x40) hdir
    ⟨fun p hp _ => by
      cases hp
      exact .inr (.inl ⟨2, List.mem_cons_self, _, rfl, rfl, rfl⟩), trivial⟩
    ⟨fun c hc => by cases hc; rfl, rfl⟩
  refine ⟨_, _, hfile, rfl, fun htree => ?_⟩
  rcases htree 3 List.mem_cons_self _ rfl with hroot | ⟨b, hb, n, hn, hp, _⟩ | ⟨sid, hs, _⟩
  · exact absurd hroot (by decide)
  · have hrest : b ∈ [3, 1] := hb
    rcases List.mem_pair.mp hrest with rfl | rfl
    · cases hn
      exact absurd hp (by decide)
    · cases hn
      exact absurd hp (by decide)
  · exact absurd hs (by decide +revert)

end LiteBSD
