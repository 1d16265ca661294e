/-
# `LiteBSD.Vfs.Undo` — calls that undo each other

What a call has made, the call that takes it away takes away without a trace:
the map of the files is as it was, and so is where the handles are.  A directory
that is renamed and renamed back has everything below it in its old place.

That is not so without the conditions.  Since no call looks for the parent, there
may be something below a path before the directory is made there, and then
`vfs_rmdir` does not take it away; and a rename puts what is below the directory
among what is below the new path already.
-/
import LiteBSD.Vfs.FileMap
import LiteBSD.Vfs.Rename
import LiteBSD.Vfs.Tree

namespace LiteBSD

open Lib

namespace FileMap

variable {s s' s'' : FileMap} {c : Caller} {path old new p : CStr} {e : FileEntry} {dir : Bool}

/-- No two handles are at one path, and there is an entry where a handle is. -/
structure Ok (s : FileMap) : Prop where
  apart : KeysApart s.name
  there : ∀ a p, s.name a = some p → s.entry p ≠ none
  short : ∀ p, s.entry p ≠ none → p.length ≤ 255

/-- A new entry that is taken away. -/
theorem Creates.undone (h : s.Ok) (habs : s.entry path = none) (hmake : s.Creates path e s') (htake : s'.Removes path s'') :
    s'' = s := by
  obtain ⟨a, ha, rfl⟩ := hmake
  obtain ⟨b, hb, rfl⟩ := htake
  have hba : b = a := by
    by_contra hne
    dsimp only at hb
    rw [Function.update_of_ne hne] at hb
    exact h.there b path hb habs
  subst hba
  refine files_ext ?_ ?_
  · dsimp only
    rw [Function.update_idem, ← habs, Function.update_eq_self]
  · dsimp only
    rw [Function.update_idem, ← ha, Function.update_eq_self]

theorem Creates.entry (hmake : s.Creates path e s') : s'.entry = Function.update s.entry path (some e) := by
  obtain ⟨a, -, rfl⟩ := hmake
  rfl

/-- A call that makes an entry, and `vfs_unlink`. -/
theorem unlink_undoes {condition : Prop} (h : s.Ok) (habs : s.entry path = none)
    (hreal : condition → real c path = true) (hroot : path ≠ [slash])
    (hmake : s.Tries s' condition (s.Creates path e s'))
    (htake : s'.Tries s'' (real c path ∧ path ≠ [slash] ∧ s'.entry path ≠ none) (s'.Removes path s'')) : s'' = s := by
  rcases hmake with ⟨hcond, hmake⟩ | ⟨-, rfl⟩
  · have hthere : s'.entry path ≠ none := by
      rw [hmake.entry, Function.update_self]
      exact Option.some_ne_none _
    rcases htake with ⟨-, htake⟩ | ⟨hno, -⟩
    · exact hmake.undone h habs htake
    · exact absurd ⟨hreal hcond, hroot, hthere⟩ hno
  · rcases htake with ⟨⟨-, -, hthere⟩, -⟩ | ⟨-, rfl⟩
    · exact absurd habs hthere
    · rfl

/-- A new directory, and `vfs_rmdir`. -/
theorem rmdir_undoes {condition : Prop} (h : s.Ok) (habs : s.entry path = none) (hbelow : ¬s.HasBelow path)
    (hreal : condition → real c path = true) (hroot : path ≠ [slash])
    (hmake : s.Tries s' condition (s.Creates path ⟨sIfdir, []⟩ s'))
    (htake : s'.Tries s'' (real c path ∧ path ≠ [slash] ∧ (∃ e, s'.entry path = some e ∧ e.isDir ∧ ¬e.isLink) ∧
      ¬s'.HasBelow path) (s'.Removes path s'')) : s'' = s := by
  rcases hmake with ⟨hcond, hmake⟩ | ⟨-, rfl⟩
  · have hthere : s'.entry path = some ⟨sIfdir, []⟩ := by rw [hmake.entry, Function.update_self]
    have hbelow' : ¬s'.HasBelow path := by
      rintro ⟨p, hp, hb⟩
      have hne : p ≠ path := by
        rintro rfl
        rw [not_isBelow_self] at hb
        cases hb
      rw [hmake.entry, Function.update_of_ne hne] at hp
      exact hbelow ⟨p, hp, hb⟩
    rcases htake with ⟨-, htake⟩ | ⟨hno, -⟩
    · exact hmake.undone h habs htake
    · exact absurd ⟨hreal hcond, hroot, ⟨_, hthere, by decide, by decide⟩, hbelow'⟩ hno
  · rcases htake with ⟨⟨-, -, ⟨e, he, -⟩, -⟩, -⟩ | ⟨-, rfl⟩
    · rw [habs] at he
      cases he
    · rfl

/-! ## There and back -/

/-- What is below `old` finds room below `new`, which is not inside it and where
there is nothing yet. -/
structure RoomFor (s : FileMap) (old new : CStr) : Prop where
  free : s.entry new = none
  below : ¬s.HasBelow new
  outside : isBelow old new = false
  room : ∀ p, s.entry p ≠ none → isBelow old p = true → new.length + (p.length - old.length) ≤ 255

theorem isBelow_slash (h : isBelow old p = true) : (p.drop old.length).head? = some slash := by
  have hb := h
  rw [isBelow_split h] at hb
  exact isBelow_append.mp hb

/-- A path below the directory, moved. -/
theorem moved_below (h : s.RoomFor old new) (hp : s.entry p ≠ none) (hb : isBelow old p = true) :
    moved true old new p = new ++ p.drop old.length := by
  have hne : p ≠ old := by
    rintro rfl
    rw [not_isBelow_self] at hb
    cases hb
  have hroom := h.room p hp hb
  rw [moved, if_neg hne, if_pos ⟨rfl, hb⟩]
  exact List.take_of_length_le (by rw [List.length_append, List.length_drop]; exact hroom)

/-- What moves comes back. -/
theorem moved_moved (hok : s.Ok) (h : s.RoomFor old new) (hp : s.entry p ≠ none) :
    moved dir new old (moved dir old new p) = p := by
  by_cases hold : p = old
  · rw [hold, moved, moved, if_pos rfl, if_pos rfl]
  by_cases hb : dir = true ∧ isBelow old p = true
  · obtain ⟨rfl, hb⟩ := hb
    have hslash := isBelow_slash hb
    have hrest := isBelow_rest hb
    rw [moved_below h hp hb, moved, if_neg fun he => hrest (List.append_right_eq_self.mp he),
      if_pos ⟨rfl, isBelow_append.mpr hslash⟩, List.drop_left, ← isBelow_split hb]
    exact List.take_of_length_le (hok.short p hp)
  · have hnew : p ≠ new := by
      rintro rfl
      exact hp h.free
    have hnb : ¬(dir = true ∧ isBelow new p = true) := fun hnb => h.below ⟨p, hp, hnb.2⟩
    have hstays : moved dir old new p = p := by rw [moved, if_neg hold, if_neg hb]
    rw [hstays, moved, if_neg hnew, if_neg hnb]

/-- Nothing is left where the directory was. -/
theorem Moves.leaves (h : s.RoomFor old new) (hold : s.entry old ≠ none) (hmove : s.Moves (moved dir old new) s') :
    s'.entry old = none ∧ (dir = true → ¬s'.HasBelow old) := by
  have hne : new ≠ old := by
    rintro rfl
    exact hold h.free
  have hhead : ∀ {mid tail : CStr}, mid ≠ [] → (mid ++ tail).head? = some slash → mid.head? = some slash := by
    intro mid tail hmid hslash
    rwa [List.head?_append_of_ne_nil mid hmid] at hslash
  have hapart : ∀ {p q}, s.entry p ≠ none → isBelow old p = true → q = old ∨ isBelow old q = true →
      new ++ p.drop old.length ≠ q := by
    rintro p q hp hb hq rfl
    have hslash := isBelow_slash hb
    obtain ⟨rest, hrest, hstart⟩ : ∃ rest, new ++ p.drop old.length = old ++ rest ∧ (rest ≠ [] → rest.head? = some slash) := by
      rcases hq with he | hbq
      · exact ⟨[], by rw [he, List.append_nil], fun hno => absurd rfl hno⟩
      · exact ⟨_, isBelow_split hbq, fun _ => isBelow_slash hbq⟩
    rcases List.append_eq_append_iff.mp hrest with ⟨mid, hmid, htail⟩ | ⟨mid, hmid, htail⟩
    · -- `old` is below `new`
      have hmidne : mid ≠ [] := by
        rintro rfl
        exact hne (by rw [hmid, List.append_nil])
      rw [htail] at hslash
      exact h.below ⟨old, hold, by rw [hmid]; exact isBelow_append.mpr (hhead hmidne hslash)⟩
    · -- `new` is below `old`
      have hmidne : mid ≠ [] := by
        rintro rfl
        exact hne (by rw [hmid, List.append_nil])
      have hrestne : rest ≠ [] := by
        rw [htail]
        exact List.append_ne_nil_of_left_ne_nil hmidne _
      have hrestslash := hstart hrestne
      rw [htail] at hrestslash
      have hinside : isBelow old new = true := by
        rw [hmid]
        exact isBelow_append.mpr (hhead hmidne hrestslash)
      rw [h.outside] at hinside
      cases hinside
  -- whatever is at or below `old` now has come from somewhere
  have hfrom : ∀ {q b}, s'.entry q = some b → q = old ∨ dir = true ∧ isBelow old q = true → False := by
    intro q b hb hq
    obtain ⟨j, hj, hje⟩ := hmove.1.comes hb
    have hthere : s.entry j ≠ none := by
      rw [hj]
      exact Option.some_ne_none _
    by_cases hjold : j = old
    · rw [hjold, moved, if_pos rfl] at hje
      subst hje
      rcases hq with he | ⟨-, hbelow⟩
      · exact hne he
      · rw [h.outside] at hbelow
        cases hbelow
    by_cases hjb : dir = true ∧ isBelow old j = true
    · obtain ⟨rfl, hjb⟩ := hjb
      rw [moved_below h hthere hjb] at hje
      exact hapart hthere hjb (hq.imp_right And.right) hje
    · rw [moved, if_neg hjold, if_neg hjb] at hje
      subst hje
      exact hq.elim hjold hjb
  constructor
  · cases hb : s'.entry old with
    | none => rfl
    | some b => exact (hfrom hb (.inl rfl)).elim
  · rintro rfl ⟨q, hq, hbelow⟩
    obtain ⟨b, hb⟩ := Option.ne_none_iff_exists'.mp hq
    exact hfrom hb (.inr ⟨rfl, hbelow⟩)

/-- What has moved has room in its old place. -/
theorem Moves.room (hok : s.Ok) (h : s.RoomFor old new) (hmove : s.Moves (moved dir old new) s') (hp : s'.entry p ≠ none)
    (hb : isBelow new p = true) : old.length + (p.length - new.length) ≤ 255 := by
  obtain ⟨b, hb'⟩ := Option.ne_none_iff_exists'.mp hp
  obtain ⟨j, hj, rfl⟩ := hmove.1.comes hb'
  have hthere : s.entry j ≠ none := by
    rw [hj]
    exact Option.some_ne_none _
  by_cases hjold : j = old
  · rw [hjold, moved, if_pos rfl, not_isBelow_self] at hb
    cases hb
  by_cases hjb : dir = true ∧ isBelow old j = true
  · obtain ⟨rfl, hjb⟩ := hjb
    have hlen := congrArg List.length (isBelow_split hjb)
    have hshort := hok.short j hthere
    rw [moved_below h hthere hjb, List.length_append, Nat.add_sub_cancel_left]
    rw [List.length_append] at hlen
    omega
  · rw [moved, if_neg hjold, if_neg hjb] at hb
    exact absurd ⟨j, hthere, hb⟩ h.below

/-- A rename, and the rename back. -/
theorem rename_undoes {oldpath newpath : CStr} (hok : s.Ok) (h : s.RoomFor (c.resolve oldpath) (c.resolve newpath))
    (hthere : s.Step s' (.rename c oldpath newpath)) (hback : s'.Step s'' (.rename c newpath oldpath)) : s'' = s := by
  unfold Step at hthere hback
  dsimp only at hthere hback
  split at hthere
  · -- nothing to rename, and nothing to rename back
    subst hthere
    rw [h.free] at hback
    exact hback
  rename_i e he
  rcases hthere with ⟨hcond, hmove⟩ | ⟨-, rfl⟩
  · obtain ⟨hold, hnew, holdroot, hnewroot, hne, -⟩ := hcond
    have hthere : s.entry (c.resolve oldpath) ≠ none := by
      rw [he]
      exact Option.some_ne_none _
    have hmoved : s'.entry (c.resolve newpath) = some e := by
      have hgoes := hmove.1.goes he
      rwa [moved, if_pos rfl] at hgoes
    rw [hmoved] at hback
    dsimp only at hback
    rcases hback with ⟨-, hmove'⟩ | ⟨hno, -⟩
    · refine files_ext (hmove.1.back hmove'.1 fun k b hk => ?_) ?_
      · exact moved_moved hok h (by rw [hk]; exact Option.some_ne_none _)
      · funext a
        rw [hmove'.2, hmove.2]
        dsimp only
        cases ha : s.name a with
        | none => rfl
        | some p => rw [Option.map_some, Option.map_some, moved_moved hok h (hok.there a p ha)]
    · exact absurd ⟨hnew, hold, hnewroot, holdroot, hne.symm, (hmove.leaves h hthere).1⟩ hno
  · rw [h.free] at hback
    exact hback

end FileMap

/-! ## The calls -/

section Calls

variable {v v₁ v₂ : Vfs} {c : Caller} {path oldpath newpath p : CStr} {a : Nat}

theorem reach_of_kept (h : blobSystem.ReachVia PathsKeptApart v) : vfsSystem.Reach v := by
  induction h with
  | init h => exact .init h.1
  | step _ _ hs ih => exact .step ih trivial hs

theorem FilesInv.entry_ne_none (h : FilesInv v) (hname : v.nameAt a = some p) : v.files.entry p ≠ none := by
  obtain ⟨n, hn⟩ := h.live hname
  rw [h.entry_eq hname hn]
  exact Option.some_ne_none _

theorem FilesInv.listed_entry (h : FilesInv v) (ha : a ∈ v.nodes) (hp : v.path a = some p) : v.files.entry p ≠ none :=
  h.entry_ne_none (by rw [h.table.nameAt ha, hp])

theorem files_ok (h : FilesInv v) (hshort : ShortPaths v) : v.files.Ok where
  apart := h.apart
  there _ _ hname := h.entry_ne_none hname
  short p hp := by
    obtain ⟨e, he⟩ := Option.ne_none_iff_exists'.mp hp
    obtain ⟨a, n, hname, hn, -⟩ := h.entry_some he
    rcases nameAt_cases hname with ⟨-, rfl⟩ | ⟨hmem, hpath⟩
    · exact Nat.le_of_ble_eq_true rfl
    · rw [Vfs.path, hn, Option.map_some, Option.some.injEq] at hpath
      exact hpath ▸ hshort a hmem n hn

/-- There is room where the map has room. -/
theorem clear_of_roomFor (h : FilesInv v) {old new : CStr} (hfree : v.files.entry new = none) (hbelow : ¬v.files.HasBelow new)
    (hroom : ∀ p, v.files.entry p ≠ none → isBelow old p = true → new.length + (p.length - old.length) ≤ 255) :
    MoveClear v a old new := by
  refine MoveClear.of_free h.unique ⟨h.entry_none.mp hfree, fun x hx p hp => ?_⟩ fun x hx p hp hb => ?_
  · exact Bool.eq_false_iff.mpr fun hb => hbelow ⟨p, h.listed_entry hx hp, hb⟩
  · exact hroom p (h.listed_entry hx hp) hb

theorem resolve_ne_root (h : FilesInv v) (habs : v.files.entry (c.resolve path) = none) : c.resolve path ≠ [slash] := by
  intro hroot
  rw [hroot] at habs
  exact h.entry_ne_none (nameAt_root v) habs

/-- The way back is clear. -/
theorem back_kept (h₁ : FilesInv v₁) (hok : v.files.Ok)
    (hroom : v.files.RoomFor (c.resolve oldpath) (c.resolve newpath))
    (hthere : v.files.Step v₁.files (.rename c oldpath newpath)) : PathsKeptApart v₁ (.rename c newpath oldpath) := by
  intro a n ha hn hdir
  obtain ⟨-, -, hmem, hpath⟩ := renameTarget_some ha
  have hname : v₁.nameAt a = some (c.resolve newpath) := by rw [h₁.table.nameAt hmem, hpath]
  have hentry := h₁.entry_eq hname hn
  have hstay : v₁.files ≠ v.files := by
    intro he
    rw [he, hroom.free] at hentry
    cases hentry
  unfold FileMap.Step at hthere
  dsimp only at hthere
  split at hthere
  · exact absurd hthere hstay
  rename_i e he
  rcases hthere with ⟨-, hmove⟩ | ⟨-, hsame⟩
  · have hgoes := hmove.1.goes he
    rw [FileMap.moved, if_pos rfl, hentry, Option.some.injEq] at hgoes
    have hedir : e.isDir = true := by
      rw [← hgoes]
      exact hdir
    have hthere : v.files.entry (c.resolve oldpath) ≠ none := by
      rw [he]
      exact Option.some_ne_none _
    obtain ⟨hgone, hnone⟩ := hmove.leaves hroom hthere
    exact clear_of_roomFor h₁ hgone (hnone hedir) fun p hp hb => hmove.room hok hroom hp hb
  · exact absurd hsame hstay

end Calls

/-- **What is made and taken away is as it was.**  In every reachable state: a
creation, a hard link or a symbolic link where there was nothing and the
`vfs_unlink` of it, a directory where there was nothing at or below the path and
the `vfs_rmdir` of it, and a rename to where there was nothing and room and the
rename back, each leave the map and the handles as they were, whether the calls
succeed or not. -/
theorem calls_undone {v v₁ v₂ : Vfs} (h : blobSystem.ReachVia PathsKeptApart v) (c : Caller) :
    (∀ path target flags call, v.files.entry (c.resolve path) = none →
      (call = .openPath c path flags ∨ call = .link c path target ∨ call = .symlink c target path) →
      vfsCall v call = .ret v₁ → vfsCall v₁ (.unlink c path) = .ret v₂ → v₂.files = v.files) ∧
    (∀ path, v.files.entry (c.resolve path) = none → ¬v.files.HasBelow (c.resolve path) →
      vfsCall v (.mkdir c path) = .ret v₁ → vfsCall v₁ (.rmdir c path) = .ret v₂ → v₂.files = v.files) ∧
    ∀ oldpath newpath, v.files.RoomFor (c.resolve oldpath) (c.resolve newpath) →
      vfsCall v (.rename c oldpath newpath) = .ret v₁ → vfsCall v₁ (.rename c newpath oldpath) = .ret v₂ →
        v₂.files = v.files := by
  have hinv := FilesInv.of_reach h
  have hok := files_ok hinv (ShortPaths.of_reach (reach_of_kept h))
  refine ⟨fun path target flags call habs hcall hmake htake => ?_, fun path habs hbelow hmake htake => ?_,
    fun oldpath newpath hroom hmake htake => ?_⟩
  · have hg : PathsKeptApart v call := by
      rcases hcall with rfl | rfl | rfl <;> trivial
    have hinv₁ := hinv.step hg hmake
    have hstep := files_step hinv hinv₁ hmake
    have hgone : PathsKeptApart v₁ (.unlink c path) := trivial
    have hstep₁ := files_step hinv₁ (hinv₁.step hgone htake) htake
    have hroot := resolve_ne_root hinv habs
    rcases hcall with rfl | rfl | rfl
    · exact FileMap.unlink_undoes hok habs And.left hroot hstep hstep₁
    · unfold FileMap.Step at hstep
      dsimp only at hstep
      split at hstep
      · have hno : v.files.Tries v₁.files False (v.files.Creates (c.resolve path) ⟨0, []⟩ v₁.files) := .inr ⟨id, hstep⟩
        exact FileMap.unlink_undoes hok habs False.elim hroot hno hstep₁
      · exact FileMap.unlink_undoes hok habs And.left hroot hstep hstep₁
    · exact FileMap.unlink_undoes hok habs And.left hroot hstep hstep₁
  · have hg : PathsKeptApart v (.mkdir c path) := trivial
    have hinv₁ := hinv.step hg hmake
    have hgone : PathsKeptApart v₁ (.rmdir c path) := trivial
    exact FileMap.rmdir_undoes hok habs hbelow And.left (resolve_ne_root hinv habs) (files_step hinv hinv₁ hmake)
      (files_step hinv₁ (hinv₁.step hgone htake) htake)
  · have hg : PathsKeptApart v (.rename c oldpath newpath) := fun a n _ _ _ =>
      clear_of_roomFor hinv hroom.free hroom.below hroom.room
    have hinv₁ := hinv.step hg hmake
    have hstep := files_step hinv hinv₁ hmake
    have hinv₂ := hinv₁.step (back_kept hinv₁ hok hroom hstep) htake
    exact FileMap.rename_undoes hok hroom hstep (files_step hinv₁ hinv₂ htake)

/-- A directory with a file in it, that is renamed and renamed back. -/
theorem renamed_and_back : ∃ v v₁ v₂, blobSystem.ReachVia PathsKeptApart v ∧
    vfsCall v (.rename rootCaller (str "/a") (str "/b")) = .ret v₁ ∧
    vfsCall v₁ (.rename rootCaller (str "/b") (str "/a")) = .ret v₂ ∧ v₁.files.entry (str "/b/x") = some ⟨sIfreg, []⟩ ∧
    v₂.files = v.files := by
  have h₀ : blobSystem.ReachVia PathsKeptApart (emptyVfs (memoryOf 0) none) :=
    .init ⟨⟨memoryOf 0, none, rfl⟩, fun _ h => by cases h⟩
  have h₁ := reachVia_call (.mkdir rootCaller (str "/a")) h₀ rfl ⟨by decide, by decide⟩
  have h₂ := reachVia_call (.openPath rootCaller (str "/a/x") 0x40) h₁ rfl ⟨by decide, by decide⟩
  have hinv := FilesInv.of_reach h₂
  refine ⟨_, _, _, h₂, rfl, rfl, by decide, ?_⟩
  refine (calls_undone h₂ rootCaller).2.2 (str "/a") (str "/b") ⟨by decide, ?_, by decide, fun p hp hb => ?_⟩ rfl rfl
  · have hno := (hinv.hasBelow_iff (p := str "/b") (by decide)).not
    exact hno.mpr (by decide)
  · have hshort := (files_ok hinv (ShortPaths.of_reach (reach_of_kept h₂))).short p hp
    have hlong : 2 < p.length := (List.getElem?_eq_some_iff.mp (isBelow_iff.mp hb).2).1
    show 2 + (p.length - 2) ≤ 255
    omega

end LiteBSD
