/-
# `LiteBSD.Vfs.Agreement` — the names for which listing and lookup agree

Of the names that `vfs_resolve_path` takes for one component (`OneComponent`),
a directory is listed with those that can be looked up in it, each once, where
the nodes and the entries of `/proc` and `/sys` fit together (`Consistent`):

  * `/proc` and `/proc/net` are never listed so: `net/dev` is no name, and
    `net` is missing;
  * another directory of `/proc` or `/sys` is, unless there are nodes in it
    that its entries do not know of;
  * a directory of nodes is, unless two of them have the same path, and the
    root if `/proc` and `/sys` are nodes as well.

`listing_agrees_iff` says so, and says what becomes of it when the names that
are cut into several components count, too.
-/
import LiteBSD.Vfs.Listing

namespace LiteBSD

open Lib

/-- A name that is one component behind the directory at `d`, with room for
all of its bytes. -/
def OneComponent (d name : CStr) : Prop := name.length ≤ 63 ∧ (joinName d name).length ≤ 255

/-- Of the names that are one component, the listing `out` of `dir` has those
that can be looked up in it; it has every name once. -/
structure ComponentsAgree (v : Vfs) (c : Caller) (dir : CStr) (out : DirBuf) : Prop where
  once : out.names.Nodup
  found : ∀ name, OneComponent (c.resolve dir) name →
    (name ∈ out.names ↔ IsName name ∧ ∃ st, vfsLstat v c (joinName dir name) = .ret (some st))

/-- No two nodes directly in the directory at `d` have the same name. -/
def OncePerName (v : Vfs) (d : CStr) : Prop :=
  ∀ a ∈ v.nodes, ∀ b ∈ v.nodes, ∀ name, IsName name → v.path a = some (joinName d name) →
    v.path b = some (joinName d name) → a = b

/-- The nodes and the entries of `/proc` and `/sys` fit together in the
directory at `d`. -/
def Consistent (v : Vfs) (c : Caller) (d : CStr) : Prop :=
  match synthLookup c.pids d with
  | some .procDir => False
  | some _ => ∀ name, OneComponent d name → IsName name → (findNode v (joinName d name)).isSome →
      (synthLookup c.pids (joinName d name)).isSome
  | none => OncePerName v d ∧ (d = [slash] → (findNode v (str "/proc")).isSome ∧ (findNode v (str "/sys")).isSome)

/-! ## Names behind a directory -/

/-- What is in front of the last slash. -/
def stem (d : CStr) : CStr := if d = [slash] then [] else d

section Names

variable {v : Vfs} {c : Caller} {d dir name path : CStr}

theorem joinName_stem (d name : CStr) : joinName d name = stem d ++ slash :: name := by
  unfold joinName stem
  split <;> rfl

/-- A path is taken apart at its last slash. -/
theorem snoc_slash_inj {p q m n : CStr} (hm : slash ∉ m) (hn : slash ∉ n) (h : p ++ slash :: m = q ++ slash :: n) :
    p = q ∧ m = n := by
  rcases List.append_eq_append_iff.mp h with ⟨t, rfl, ht⟩ | ⟨t, rfl, ht⟩
  · cases t with
    | nil => exact ⟨(List.append_nil _).symm, (List.cons.inj ht).2⟩
    | cons b t =>
        rw [List.cons_append, List.cons.injEq] at ht
        exact absurd (ht.2 ▸ List.mem_append_right _ List.mem_cons_self) hm
  · cases t with
    | nil => exact ⟨List.append_nil _, (List.cons.inj ht).2.symm⟩
    | cons b t =>
        rw [List.cons_append, List.cons.injEq] at ht
        exact absurd (ht.2 ▸ List.mem_append_right _ List.mem_cons_self) hn

/-- A name that is one component leads to the path it is joined to. -/
theorem resolve_component (hhead : dir.head? = some slash) (hname : IsName name)
    (hone : OneComponent (c.resolve dir) name) : c.resolve (joinName dir name) = joinName (c.resolve dir) name := by
  obtain ⟨hslash, hne, hdot, hdots⟩ := hname
  obtain ⟨hshort, hroom⟩ := hone
  have hw : Walked (c.resolve dir) := (resolve_absolute hhead _).2
  have hpos := List.length_pos_iff.mpr hne
  rw [resolve_joinName hhead]
  generalize c.resolve dir = d at hw hroom ⊢
  rw [joinName_stem, List.length_append, List.length_cons] at hroom
  have hlen : d.length < 254 := by
    unfold stem at hroom
    split at hroom
    · rename_i hroot
      rw [hroot]
      decide
    · omega
  have htake : name.take componentMax = name := List.take_of_length_le hshort
  have hdrop : name.drop componentMax = [] := List.drop_of_length_le hshort
  rw [resolveLoop_piece _ _ hne hslash, htake, hdrop, resolveLoop_nil, walkStep, if_neg hdot, if_neg hdots,
    hw.push_room hlen, joinName_stem, stem, List.take_of_length_le (by unfold stem at hroom; omega)]

/-- The name of a node in a directory is what its path is joined of. -/
theorem childName_iff : childName d path = some name ↔ path = joinName d name ∧ slash ∉ name ∧ name ≠ [] := by
  have hdirect : ∀ rest, directName rest = some name ↔ rest = name ∧ slash ∉ name ∧ name ≠ [] := by
    intro rest
    unfold directName
    constructor
    · intro h
      split at h
      · rename_i hn
        obtain rfl := Option.some.inj h
        exact ⟨rfl, hn⟩
      · cases h
    · rintro ⟨rfl, hn⟩
      exact if_pos hn
  unfold childName joinName
  split
  · constructor
    · intro h
      split at h
      · rename_i hpath
        obtain ⟨hrest, hn⟩ := (hdirect _).mp h
        obtain ⟨b, rest, rfl⟩ := List.exists_cons_of_ne_nil (l := path) (by rintro rfl; cases hpath.1)
        rw [List.drop_succ_cons, List.drop_zero] at hrest
        exact ⟨by rw [hrest, Option.some.inj hpath.1], hn⟩
      · cases h
    · rintro ⟨rfl, hn⟩
      have hpos := List.length_pos_iff.mpr hn.2
      rw [if_pos ⟨rfl, by rw [List.length_cons]; omega⟩]
      exact (hdirect _).mpr ⟨rfl, hn⟩
  · constructor
    · intro h
      split at h
      · rename_i hbelow
        obtain ⟨hrest, hn⟩ := (hdirect _).mp h
        obtain ⟨htake, hslash⟩ := isBelow_iff.mp hbelow
        refine ⟨?_, hn⟩
        obtain ⟨hlt, hbyte⟩ := List.getElem?_eq_some_iff.mp hslash
        rw [← List.take_append_drop d.length path, htake, List.drop_eq_getElem_cons hlt, hbyte, hrest]
      · cases h
    · rintro ⟨rfl, hn⟩
      have hbelow : isBelow d (d ++ slash :: name) = true :=
        isBelow_iff.mpr ⟨List.take_left, by rw [List.getElem?_append_right (Nat.le_refl _), Nat.sub_self]; rfl⟩
      rw [if_pos hbelow, hdirect, List.drop_append, List.drop_of_length_le (Nat.le_succ _), Nat.add_sub_cancel_left]
      exact ⟨rfl, hn⟩

/-- What has a name behind a directory is no root. -/
theorem joinName_ne_root (hne : name ≠ []) : joinName d name ≠ [slash] := by
  intro h
  have hlen := congrArg List.length h
  rw [joinName_stem, List.length_append, List.length_cons, List.length_singleton] at hlen
  have hpos := List.length_pos_iff.mpr hne
  omega

theorem findNode_isSome (hroot : path ≠ [slash]) : (findNode v path).isSome ↔ ∃ a ∈ v.nodes, v.path a = some path := by
  cases hf : findNode v path with
  | none =>
      have habsent := (findNode_eq_none hf).2
      refine ⟨fun h => absurd h Bool.false_ne_true, fun ⟨a, ha, hp⟩ => ?_⟩
      exact absurd (List.mem_map.mpr ⟨a, ha, hp⟩) habsent
  | some a => exact ⟨fun _ => ⟨a, findNode_path hf hroot⟩, fun _ => rfl⟩

/-- A lookup finds an entry or a node. -/
theorem not_absent_iff : ¬Absent v c path ↔ (synthLookup c.pids path).isSome ∨ (findNode v path).isSome := by
  unfold Absent
  cases synthLookup c.pids path <;> cases findNode v path <;> simp

end Names

/-! ## Entries in a directory -/

/-- The entries that are there whatever tasks there are. -/
def fixedPaths : List CStr :=
  [str "/proc", str "/proc/net"] ++ procFiles.map (str "/proc/" ++ ·) ++ sysDirs ++ sysFiles.map (dmiPrefix ++ ·)

/-- The names a directory of `/sys` is listed with. -/
def sysNames (slot : Nat) : List CStr := DirBuf.names ⟨0, synthRecords [] (.sysDir slot)⟩

section Entries

variable {pids : List Nat} {d name path s : CStr} {sid : SynthId} {pid : Nat} {out : DirBuf}

theorem isSome_fixed (h : path ∈ fixedPaths) : (synthLookup pids path).isSome := by
  simp only [fixedPaths, procFiles, sysDirs, sysFiles, List.map_cons, List.map_nil, List.cons_append,
    List.nil_append, List.mem_cons, List.not_mem_nil, or_false] at h
  rcases h with rfl | rfl | rfl | rfl | rfl | rfl | rfl | rfl | rfl | rfl | rfl | rfl | rfl | rfl | rfl | rfl | rfl |
    rfl | rfl <;> rfl

/-- An entry is one of these, or belongs to a task. -/
theorem entry_kinds (h : (synthLookup pids path).isSome) : path ∈ fixedPaths ∨
    ∃ s pid, PidText s pid ∧ pid ∈ pids ∧
      (path = str "/proc" ++ slash :: s ∨ ∃ f ∈ pidFiles, path = str "/proc/" ++ s ++ slash :: f) := by
  obtain ⟨sid, hsid⟩ := Option.isSome_iff_exists.mp h
  cases synthLookup_iff.mp hsid with
  | proc => exact .inl (by decide)
  | net => exact .inl (by decide)
  | @proFile slot f hf =>
      have hall : ∀ f ∈ procFiles, str "/proc/" ++ f ∈ fixedPaths := by decide
      exact .inl (hall f (List.mem_of_getElem? hf))
  | @pidDir s pid htext hmem => exact .inr ⟨s, pid, htext, hmem, .inl rfl⟩
  | @pidFile s f pid slot htext hmem hf =>
      refine .inr ⟨s, pid, htext, hmem, .inr ⟨f, List.mem_of_getElem? hf, ?_⟩⟩
      rw [List.append_assoc]
  | sysDir hpath =>
      have hall : ∀ e ∈ sysDirs, e ∈ fixedPaths := by decide
      exact .inl (hall path (List.mem_of_getElem? hpath))
  | @sysFile slot f hf =>
      have hall : ∀ f ∈ sysFiles, dmiPrefix ++ f ∈ fixedPaths := by decide
      exact .inl (hall f (List.mem_of_getElem? hf))

theorem stem_eq_self (h : stem d ≠ []) : stem d = d := by
  unfold stem at h ⊢
  split at h
  · exact absurd rfl h
  · rename_i hroot
    exact if_neg hroot

/-- The directory of an entry has an entry itself, but for that of `/proc` and
`/sys`. -/
theorem entry_above (hd : d ≠ []) (hslash : slash ∉ name) (h : (synthLookup pids (joinName d name)).isSome) :
    (synthLookup pids d).isSome ∨ d = [slash] ∧ (name = str "proc" ∨ name = str "sys") := by
  rw [joinName_stem] at h
  have hfixed : ∀ e ∈ fixedPaths, ∀ k < e.length, e[k]? = some slash → slash ∉ e.drop (k + 1) →
      k = 0 ∧ (e.drop (k + 1) = str "proc" ∨ e.drop (k + 1) = str "sys") ∨ e.take k ≠ [] ∧ e.take k ∈ fixedPaths := by
    decide
  rcases entry_kinds h with hmem | ⟨s, pid, htext, hpid, hpath | ⟨f, hf, hpath⟩⟩
  · have hat : (stem d ++ slash :: name)[(stem d).length]? = some slash := by
      rw [List.getElem?_append_right (Nat.le_refl _), Nat.sub_self]
      rfl
    have hdrop : (stem d ++ slash :: name).drop ((stem d).length + 1) = name := by
      rw [List.drop_append, List.drop_of_length_le (Nat.le_succ _), Nat.add_sub_cancel_left]
      rfl
    have hlt : (stem d).length < (stem d ++ slash :: name).length := (List.getElem?_eq_some_iff.mp hat).1
    have hsplit := hfixed _ hmem _ hlt hat (hdrop.symm ▸ hslash)
    rw [hdrop, List.take_left] at hsplit
    rcases hsplit with ⟨hzero, hname⟩ | ⟨hne, habove⟩
    · refine .inr ⟨?_, hname⟩
      by_contra hroot
      have hstem : stem d = d := if_neg hroot
      exact hd (List.length_eq_zero_iff.mp (hstem ▸ hzero))
    · rw [stem_eq_self hne] at habove
      exact .inl (isSome_fixed habove)
  · obtain ⟨hproc, -⟩ := snoc_slash_inj hslash htext.no_slash hpath
    have hself : stem d = d := stem_eq_self (by rw [hproc]; decide)
    rw [← hself, hproc]
    exact .inl rfl
  · have hfile : ∀ f ∈ pidFiles, slash ∉ f := by decide
    obtain ⟨hproc, -⟩ := snoc_slash_inj hslash (hfile f hf) hpath
    have hself : stem d = d := stem_eq_self (by rw [hproc]; exact List.cons_ne_nil _ _)
    rw [← hself, hproc, synthLookup_iff.mpr (.pidDir htext hpid)]
    exact .inl rfl

/-- The names in a directory of `/sys`. -/
theorem sys_names {slot : Nat} (hdir : sysDirs[slot]? = some d) (hout : out.records = synthRecords pids (.sysDir slot)) :
    out.names.Nodup ∧ ∀ name, name ∈ out.names ↔ IsName name ∧ (synthLookup pids (joinName d name)).isSome := by
  have hslot : slot < 5 := (List.getElem?_eq_some_iff.mp hdir).1
  have hnames : out.names = sysNames slot := by
    unfold DirBuf.names
    rw [hout]
    rfl
  -- the entries are fixed, and so is what is directly in one of them
  have honce : ∀ slot < 5, (sysNames slot).Nodup := by decide
  have hlisted : ∀ slot < 5, ∀ d ∈ sysDirs[slot]?, ∀ name ∈ sysNames slot,
      IsName name ∧ joinName d name ∈ fixedPaths := by decide
  have hfixed : ∀ slot < 5, ∀ d ∈ sysDirs[slot]?, d ≠ [slash] ∧ d[1]? ≠ some 112 ∧ 2 ≤ d.length ∧
      ∀ e ∈ fixedPaths, e.take (d.length + 1) = d ++ [slash] → slash ∉ e.drop (d.length + 1) →
        e.drop (d.length + 1) ∈ sysNames slot := by decide
  obtain ⟨hroot, hsys, hlen, hbelow⟩ := hfixed slot hslot d hdir
  rw [hnames]
  refine ⟨honce slot hslot, fun name => ⟨fun hmem => ?_, fun ⟨hname, hsome⟩ => ?_⟩⟩
  · obtain ⟨hname, hjoin⟩ := hlisted slot hslot d hdir name hmem
    exact ⟨hname, isSome_fixed hjoin⟩
  · have hjoin : joinName d name = d ++ slash :: name := if_neg hroot
    rw [hjoin] at hsome
    have hproc : ∀ rest : CStr, d ++ slash :: name ≠ str "/proc" ++ rest := by
      intro rest he
      have hbyte := congrArg (·[1]?) he
      rw [List.getElem?_append_left (by omega), List.getElem?_append_left (by decide)] at hbyte
      exact hsys hbyte
    rcases entry_kinds hsome with hmem | ⟨s, pid, -, -, hpath | ⟨f, -, hpath⟩⟩
    · have hdrop : (d ++ slash :: name).drop (d.length + 1) = name := by
        rw [List.drop_append, List.drop_of_length_le (Nat.le_succ _), Nat.add_sub_cancel_left]
        rfl
      have htake : (d ++ slash :: name).take (d.length + 1) = d ++ [slash] := by
        rw [List.take_append, List.take_of_length_le (Nat.le_succ _), Nat.add_sub_cancel_left]
        rfl
      have hin := hbelow _ hmem htake
      rw [hdrop] at hin
      exact hin hname.1
    · exact absurd hpath (hproc _)
    · exact absurd hpath (hproc (slash :: s ++ slash :: f))

/-- The names in the directory of a task. -/
theorem pid_names (htext : PidText s pid) (hpid : pid ∈ pids) (hout : out.records = synthRecords pids (.pidDir pid)) :
    out.names.Nodup ∧ ∀ name, name ∈ out.names ↔
      IsName name ∧ (synthLookup pids (joinName (str "/proc/" ++ s) name)).isSome := by
  have hnames : out.names = pidFiles := by
    unfold DirBuf.names
    rw [hout]
    rfl
  have hall : ∀ f ∈ pidFiles, IsName f := by decide
  have hjoin : ∀ name, joinName (str "/proc/" ++ s) name = str "/proc/" ++ s ++ slash :: name := by
    intro name
    refine if_neg fun h => ?_
    exact absurd (congrArg List.length h) (by simp [str])
  rw [hnames]
  refine ⟨by decide, fun name => ⟨fun hmem => ?_, ?_⟩⟩
  · obtain ⟨slot, hslot⟩ := List.mem_iff_getElem?.mp hmem
    rw [hjoin, List.append_assoc, synthLookup_iff.mpr (.pidFile htext hpid hslot)]
    exact ⟨hall name hmem, rfl⟩
  · rintro ⟨hname, hsome⟩
    rw [hjoin] at hsome
    rcases entry_kinds hsome with hmem | ⟨s', pid', htext', -, hpath | ⟨f, hf, hpath⟩⟩
    · -- no fixed entry goes on with a digit
      have hdigit : ∀ e ∈ fixedPaths, e.take 6 = str "/proc/" → ∀ b ∈ e[6]?, 57 < b := by decide +kernel
      obtain ⟨b, rest, rfl⟩ := List.exists_cons_of_ne_nil htext.ne_nil
      have hlt := hdigit _ hmem (by rfl) b rfl
      exact absurd (htext.digit b List.mem_cons_self).2 (UInt8.not_le.mpr hlt)
    · obtain ⟨hproc, -⟩ := snoc_slash_inj hname.1 htext'.no_slash hpath
      exact absurd (congrArg List.length hproc) (by simp [str])
    · obtain ⟨-, rfl⟩ := snoc_slash_inj hname.1 (hall f hf).1 hpath
      exact hf

end Entries

/-! ## Nodes in a directory -/

section Nodes

variable {v : Vfs} {c : Caller} {d dir name : CStr} {out : DirBuf}

/-- What is kept of a list without repetitions is without repetitions when no
two things in it are kept as the same. -/
theorem nodup_filterMap_iff {α β : Type} {f : α → Option β} {l : List α} (h : l.Nodup) :
    (l.filterMap f).Nodup ↔ ∀ a ∈ l, ∀ b ∈ l, ∀ x, f a = some x → f b = some x → a = b := by
  induction l with
  | nil => exact ⟨fun _ _ ha => absurd ha List.not_mem_nil, fun _ => List.nodup_nil⟩
  | cons a l ih =>
      obtain ⟨hnew, hl⟩ := List.nodup_cons.mp h
      cases hf : f a with
      | none =>
          rw [List.filterMap_cons_none hf, ih hl]
          constructor
          · intro hall b hb b' hb' x hx hx'
            have hmem : ∀ {e}, e ∈ a :: l → f e = some x → e ∈ l := by
              intro e he hfe
              rcases List.mem_cons.mp he with rfl | he
              · cases hf.symm.trans hfe
              · exact he
            exact hall b (hmem hb hx) b' (hmem hb' hx') x hx hx'
          · exact fun hall b hb b' hb' => hall b (List.mem_cons_of_mem _ hb) b' (List.mem_cons_of_mem _ hb')
      | some y =>
          rw [List.filterMap_cons_some hf, List.nodup_cons, ih hl, List.mem_filterMap]
          constructor
          · rintro ⟨hy, hall⟩ b hb b' hb' x hx hx'
            have hnone : ∀ {e}, e ∈ l → f e ≠ some y := fun he hfe => hy ⟨_, he, hfe⟩
            rcases List.mem_cons.mp hb with hba | hbl
            · subst hba
              obtain rfl := Option.some.inj (hf.symm.trans hx)
              rcases List.mem_cons.mp hb' with hba' | hbl'
              · exact hba'.symm
              · exact absurd hx' (hnone hbl')
            · rcases List.mem_cons.mp hb' with hba' | hbl'
              · subst hba'
                obtain rfl := Option.some.inj (hf.symm.trans hx')
                exact absurd hx (hnone hbl)
              · exact hall b hbl b' hbl' x hx hx'
          · intro hall
            refine ⟨?_, fun b hb b' hb' => hall b (List.mem_cons_of_mem _ hb) b' (List.mem_cons_of_mem _ hb')⟩
            rintro ⟨b, hb, hx⟩
            exact hnew (hall a List.mem_cons_self b (List.mem_cons_of_mem _ hb) y hf hx ▸ hb)

/-- The names of the records are those of the nodes in the directory. -/
theorem childRecords_names {nodes : List Nat} {records : List Dirent} (h : childRecords v d nodes = .ret records) :
    records.map Dirent.name = nodes.filterMap fun a => (v.path a).bind (childName d) := by
  induction nodes generalizing records with
  | nil =>
      cases h
      rfl
  | cons a nodes ih =>
      obtain ⟨n, hn, h⟩ := Exec.bind_eq_ret.mp h
      obtain ⟨rest, hrest, h⟩ := Exec.bind_eq_ret.mp h
      cases h
      have hpath : v.path a = some n.path := by rw [Vfs.path, Vfs.load_ret hn, Option.map_some]
      rw [List.map_append, ih hrest, List.filterMap_cons, hpath, Option.bind_some]
      cases childName d n.path <;> rfl

/-- What two names of a directory have in common with a node. -/
theorem listedName_iff {a : Nat} :
    ((v.path a).bind (childName d)).filter (fun name => name ≠ [dot] ∧ name ≠ [dot, dot]) = some name ↔
      IsName name ∧ v.path a = some (joinName d name) := by
  rw [Option.filter_eq_some_iff, Option.bind_eq_some_iff, decide_eq_true_iff]
  constructor
  · rintro ⟨⟨path, hpath, hchild⟩, hdots⟩
    obtain ⟨rfl, hslash, hne⟩ := childName_iff.mp hchild
    exact ⟨⟨hslash, hne, hdots⟩, hpath⟩
  · rintro ⟨⟨hslash, hne, hdots⟩, hpath⟩
    exact ⟨⟨_, hpath, childName_iff.mpr ⟨rfl, hslash, hne⟩⟩, hdots⟩

/-- The names of a directory of nodes. -/
theorem node_names {n up : Nat} {children : List Dirent} (hnd : v.nodes.Nodup)
    (hchildren : childRecords v d v.nodes = .ret children)
    (hout : out.records = ⟨n, [dot]⟩ :: ⟨up, [dot, dot]⟩ :: children) :
    (out.names.Nodup ↔ OncePerName v d) ∧
      ∀ name, name ∈ out.names ↔ IsName name ∧ (findNode v (joinName d name)).isSome := by
  have hnames : out.names = v.nodes.filterMap fun a =>
      ((v.path a).bind (childName d)).filter fun name => name ≠ [dot] ∧ name ≠ [dot, dot] := by
    unfold DirBuf.names
    rw [hout, List.map_cons, List.map_cons, List.filter_cons_of_neg (by simp), List.filter_cons_of_neg (by simp),
      childRecords_names hchildren, List.filter_filterMap]
  rw [hnames]
  constructor
  · rw [nodup_filterMap_iff hnd]
    simp only [listedName_iff]
    constructor
    · exact fun hall a ha b hb name hname hpa hpb => hall a ha b hb name ⟨hname, hpa⟩ ⟨hname, hpb⟩
    · exact fun hall a ha b hb name hpa hpb => hall a ha b hb name hpa.1 hpa.2 hpb.2
  · intro name
    rw [List.mem_filterMap]
    simp only [listedName_iff]
    constructor
    · rintro ⟨a, ha, hname, hpath⟩
      exact ⟨hname, (findNode_isSome (joinName_ne_root hname.2.1)).mpr ⟨a, ha, hpath⟩⟩
    · rintro ⟨hname, hsome⟩
      obtain ⟨a, ha, hpath⟩ := (findNode_isSome (joinName_ne_root hname.2.1)).mp hsome
      exact ⟨a, ha, hname, hpath⟩

/-- Behind a slash that fills the buffer there are no names. -/
theorem names_full {n up : Nat} {children : List Dirent} (hshort : ShortPaths v) (hw : Walked d) (hlen : d.length > 1)
    (hslash : d[d.length - 1]? = some slash) (hchildren : childRecords v d.dropLast v.nodes = .ret children)
    (hout : out.records = ⟨n, [dot]⟩ :: ⟨up, [dot, dot]⟩ :: children) :
    (out.names.Nodup ↔ OncePerName v d) ∧
      ∀ name, name ∈ out.names ↔ IsName name ∧ (findNode v (joinName d name)).isSome := by
  have hroot : d ≠ [slash] := by
    rintro rfl
    exact absurd hlen (by decide)
  have hfull : d.length = 255 := by
    have hle := hw.length
    by_contra hless
    exact hw.last hroot (by omega) hslash
  obtain rfl := childRecords_crowded (by rw [List.length_dropLast, hfull]) hshort hchildren
  have hnil : out.names = [] := by
    unfold DirBuf.names
    rw [hout, List.map_cons, List.map_cons, List.filter_cons_of_neg (by simp), List.filter_cons_of_neg (by simp)]
    rfl
  have hno : ∀ a ∈ v.nodes, ∀ name, v.path a ≠ some (joinName d name) := by
    intro a ha name hpath
    obtain ⟨m, hm, hjoin⟩ := Option.map_eq_some_iff.mp hpath
    have hle := hshort a ha m hm
    rw [hjoin, joinName, if_neg hroot, List.length_append, List.length_cons] at hle
    omega
  rw [hnil]
  refine ⟨iff_of_true List.nodup_nil fun a ha _ _ name _ hpath => absurd hpath (hno a ha name), fun name => ?_⟩
  refine iff_of_false List.not_mem_nil ?_
  rintro ⟨hname, hsome⟩
  obtain ⟨a, ha, hpath⟩ := (findNode_isSome (joinName_ne_root hname.2.1)).mp hsome
  exact hno a ha name hpath

/-- Where no two nodes have the same path, no two have the same name. -/
theorem UniquePaths.once (h : UniquePaths v) (d : CStr) : OncePerName v d :=
  fun _ ha _ hb _ _ hpa hpb => List.inj_on_of_nodup_map h.1 ha hb (hpa.trans hpb.symm)

/-- What a lookup of a name in the directory finds. -/
theorem found_iff (ht : NodeTable v) (hr : c.Renders) (hhead : dir.head? = some slash) (hname : IsName name)
    (hone : OneComponent (c.resolve dir) name) :
    (∃ st, vfsLstat v c (joinName dir name) = .ret (some st)) ↔
      (synthLookup c.pids (joinName (c.resolve dir) name)).isSome ∨
        (findNode v (joinName (c.resolve dir) name)).isSome := by
  rw [lookup_iff ht hr, resolve_component hhead hname hone, not_absent_iff]

/-- A directory of entries agrees where its nodes have entries. -/
theorem agree_of_entries (ht : NodeTable v) (hr : c.Renders) (hhead : dir.head? = some slash)
    (hnames : out.names.Nodup ∧ ∀ name, name ∈ out.names ↔
      IsName name ∧ (synthLookup c.pids (joinName (c.resolve dir) name)).isSome) :
    ComponentsAgree v c dir out ↔ ∀ name, OneComponent (c.resolve dir) name → IsName name →
      (findNode v (joinName (c.resolve dir) name)).isSome →
        (synthLookup c.pids (joinName (c.resolve dir) name)).isSome := by
  obtain ⟨honce, hmem⟩ := hnames
  constructor
  · intro hagree name hone hname hnode
    have hfound := (found_iff ht hr hhead hname hone).mpr (.inr hnode)
    exact ((hmem name).mp ((hagree.found name hone).mpr ⟨hname, hfound⟩)).2
  · intro hall
    refine ⟨honce, fun name hone => ?_⟩
    rw [hmem]
    refine and_congr_right fun hname => ?_
    rw [found_iff ht hr hhead hname hone]
    exact ⟨.inl, fun h => h.elim id (hall name hone hname)⟩

/-- A directory of nodes agrees where no name is there twice, and the root
where `/proc` and `/sys` are nodes. -/
theorem agree_of_nodes (ht : NodeTable v) (hr : c.Renders) (hhead : dir.head? = some slash)
    (hs : synthLookup c.pids (c.resolve dir) = none) 
    (hnames : (out.names.Nodup ↔ OncePerName v (c.resolve dir)) ∧
      ∀ name, name ∈ out.names ↔ IsName name ∧ (findNode v (joinName (c.resolve dir) name)).isSome) :
    ComponentsAgree v c dir out ↔ OncePerName v (c.resolve dir) ∧
      (c.resolve dir = [slash] → (findNode v (str "/proc")).isSome ∧ (findNode v (str "/sys")).isSome) := by
  obtain ⟨honce, hmem⟩ := hnames
  have hne : c.resolve dir ≠ [] := (resolve_absolute hhead _).2.ne_nil
  constructor
  · intro hagree
    refine ⟨honce.mp hagree.once, fun hroot => ?_⟩
    have hnode : ∀ name, IsName name → OneComponent [slash] name → (synthLookup c.pids (slash :: name)).isSome →
        (findNode v (slash :: name)).isSome := by
      intro name hname hone hentry
      rw [← hroot] at hone
      have hjoin : joinName (c.resolve dir) name = slash :: name := if_pos hroot
      have hfound := (found_iff ht hr hhead hname hone).mpr (.inl (hjoin ▸ hentry))
      have hlisted := ((hmem name).mp ((hagree.found name hone).mpr ⟨hname, hfound⟩)).2
      rwa [hjoin] at hlisted
    exact ⟨hnode (str "proc") (by decide) ⟨by decide, by decide⟩ rfl,
      hnode (str "sys") (by decide) ⟨by decide, by decide⟩ rfl⟩
  · rintro ⟨hunique, hroot⟩
    refine ⟨honce.mpr hunique, fun name hone => ?_⟩
    rw [hmem]
    refine and_congr_right fun hname => ?_
    rw [found_iff ht hr hhead hname hone]
    refine ⟨.inr, fun h => h.elim (fun hentry => ?_) id⟩
    rcases entry_above hne hname.1 hentry with habove | ⟨hd, rfl | rfl⟩
    · rw [hs] at habove
      cases habove
    · rw [hd]
      exact (hroot hd).1
    · rw [hd]
      exact (hroot hd).2

end Nodes

/-- Of the names that are one component, a directory is listed with those that
can be looked up exactly when its nodes and entries fit together.  When the
longer names count, too, that is so where there is room for no name. -/
theorem listing_agrees_iff {v : Vfs} (h : vfsSystem.Reach v) (k : SysInfo) (tasks : List TaskInfo)
    (cwd dir : CStr) (hhead : dir.head? = some slash) {records : List Dirent} {bufsize : Nat}
    {out : DirBuf} (hdir : dirRecords v (kernelCaller k tasks cwd) dir = .ret (some records))
    (hroom : recordsLen records ≤ bufsize) (hmax : bufsize < 4294967296)
    (hout : vfsGetdents v (kernelCaller k tasks cwd) dir bufsize = .ret (some out)) :
    (ComponentsAgree v (kernelCaller k tasks cwd) dir out ↔
        Consistent v (kernelCaller k tasks cwd) ((kernelCaller k tasks cwd).resolve dir)) ∧
      (ListingAgrees v (kernelCaller k tasks cwd) dir out ↔
        Crowded v (kernelCaller k tasks cwd) ((kernelCaller k tasks cwd).resolve dir)) := by
  refine ⟨?_, listing_crowded_iff h k tasks cwd dir hhead hdir hroom hmax hout⟩
  have ht : NodeTable v := .of_reach h
  have hr := renders_kernelCaller k tasks cwd
  generalize kernelCaller k tasks cwd = c at hdir hout hr ⊢
  have hw : Walked (c.resolve dir) := (resolve_absolute hhead _).2
  obtain rfl : out.records = records := records_of_getdents hdir hroom hmax hout
  unfold Consistent
  cases hs : synthLookup c.pids (c.resolve dir) with
  | some sid =>
      simp only [dirRecords, hs] at hdir
      have hisDir : sid.isDir = true := by
        by_contra hfile
        rw [if_neg hfile] at hdir
        cases hdir
      rw [if_pos hisDir, Exec.ret.injEq, Option.some.injEq] at hdir
      have hentry := synthLookup_iff.mp hs
      cases sid with
      | procDir =>
          -- `net/dev` is listed
          refine iff_of_false (fun hagree => ?_) id
          have hone : OneComponent (c.resolve dir) (str "net/dev") := by
            generalize c.resolve dir = d at hentry
            cases hentry <;> exact ⟨by decide, by decide⟩
          have hlisted : str "net/dev" ∈ out.names := by
            refine List.mem_filter.mpr ⟨List.mem_map.mpr ⟨⟨106, str "net/dev"⟩, ?_, rfl⟩, by decide⟩
            rw [← hdir]
            exact List.mem_append_left _ (by decide)
          exact absurd ((hagree.found _ hone).mp hlisted).1.1 (by decide)
      | pidDir pid =>
          refine agree_of_entries ht hr hhead ?_
          generalize c.resolve dir = d at hentry ⊢
          cases hentry with
          | pidDir htext hpid => exact pid_names htext hpid hdir.symm
      | sysDir slot =>
          refine agree_of_entries ht hr hhead ?_
          generalize c.resolve dir = d at hentry ⊢
          cases hentry with
          | sysDir hpath => exact sys_names hpath hdir.symm
      | pidFile pid slot => cases hisDir
      | proFile slot => cases hisDir
      | sysFile slot => cases hisDir
  | none =>
      refine agree_of_nodes ht hr hhead hs ?_
      cases hf : findNode v (c.resolve dir) with
      | none => exact absurd ⟨hs, hf⟩ (exists_of_listed hdir)
      | some a =>
          simp only [dirRecords, hs, hf] at hdir
          obtain ⟨n, hn, hdir⟩ := Exec.bind_eq_ret.mp hdir
          split at hdir
          · cases hdir
          obtain ⟨up, hup, hdir⟩ := Exec.bind_eq_ret.mp hdir
          obtain ⟨children, hchildren, hdir⟩ := Exec.bind_eq_ret.mp hdir
          rw [Exec.ret.injEq, Option.some.injEq] at hdir
          split at hchildren
          · rename_i hslash
            exact names_full (.of_reach h) hw hslash.1 hslash.2 hchildren hdir.symm
          · exact node_names ht.nodup hchildren hdir.symm

/-- A directory with a file and a directory in it. -/
def twoInD : List VfsCall :=
  [.mkdir rootCaller (str "/d"), .openPath rootCaller (str "/d/x") 0x40, .mkdir rootCaller (str "/d/y")]

/-- `/d` is listed with `x` and `y`, and `/proc/7` with what there is of a
task; the root is listed without `/proc`. -/
theorem listing_of_d : ∃ v, vfsCalls (emptyVfs (memoryOf 0) none) twoInD = .ret v ∧
    (∃ out, vfsGetdents v (kernelCaller quietKernel [loneTask 7] (str "/")) (str "/d") 64 = .ret (some out) ∧
      out.names = [str "y", str "x"] ∧ ComponentsAgree v (kernelCaller quietKernel [loneTask 7] (str "/")) (str "/d") out) ∧
    (∃ out, vfsGetdents v (kernelCaller quietKernel [loneTask 7] (str "/")) (str "/proc/7") 64 = .ret (some out) ∧
      out.names = [str "stat", str "cmdline"] ∧
      ComponentsAgree v (kernelCaller quietKernel [loneTask 7] (str "/")) (str "/proc/7") out) ∧
    ∃ out, vfsGetdents v (kernelCaller quietKernel [loneTask 7] (str "/")) (str "/") 64 = .ret (some out) ∧
      out.names = [str "d"] ∧ ¬ComponentsAgree v (kernelCaller quietKernel [loneTask 7] (str "/")) (str "/") out := by
  have hv : ∃ v, vfsCalls (emptyVfs (memoryOf 0) none) twoInD = .ret v ∧
      v.nodes.map v.path = [some (str "/d/y"), some (str "/d/x"), some (str "/d")] ∧
      dirRecords v (kernelCaller quietKernel [loneTask 7] (str "/")) (str "/d") =
        .ret (some [⟨2, [dot]⟩, ⟨1, [dot, dot]⟩, ⟨4, str "y"⟩, ⟨3, str "x"⟩]) ∧
      dirRecords v (kernelCaller quietKernel [loneTask 7] (str "/")) (str "/proc/7") =
        .ret (some (synthRecords [7] (.pidDir 7))) ∧
      dirRecords v (kernelCaller quietKernel [loneTask 7] (str "/")) (str "/") =
        .ret (some [⟨1, [dot]⟩, ⟨1, [dot, dot]⟩, ⟨2, str "d"⟩]) :=
    ⟨_, rfl, rfl, rfl, rfl, rfl⟩
  obtain ⟨v, hv, hpaths, hd, hpid, hroot⟩ := hv
  have hreach := reach_vfsCalls (S := vfsSystem) id (.init ⟨memoryOf 0, none, rfl⟩) twoInD hv
  have hunique : UniquePaths v := by
    unfold UniquePaths
    rw [hpaths]
    decide
  have hnone : ∀ p, p ≠ [slash] → some p ∉ v.nodes.map v.path → ¬(findNode v p).isSome := by
    intro p hp hno hsome
    obtain ⟨a, ha, hpath⟩ := (findNode_isSome hp).mp hsome
    exact hno (List.mem_map.mpr ⟨a, ha, hpath⟩)
  have hout : ∀ {dir records}, dirRecords v (kernelCaller quietKernel [loneTask 7] (str "/")) dir = .ret (some records) →
      vfsGetdents v (kernelCaller quietKernel [loneTask 7] (str "/")) dir 64 = .ret (some (emitAll 64 records)) := by
    intro dir records hrec
    unfold vfsGetdents
    rw [if_neg (by decide), hrec]
    rfl
  refine ⟨v, hv, ⟨_, hout hd, by decide, ?_⟩, ⟨_, hout hpid, by decide, ?_⟩, ⟨_, hout hroot, by decide, ?_⟩⟩
  · exact (listing_agrees_iff hreach quietKernel [loneTask 7] (str "/") (str "/d") rfl hd (by decide) (by decide)
      (hout hd)).1.mpr ⟨hunique.once _, fun h => absurd h (by decide)⟩
  · refine (listing_agrees_iff hreach quietKernel [loneTask 7] (str "/") (str "/proc/7") rfl hpid (by decide) (by decide)
      (hout hpid)).1.mpr fun name _ hname hnode => ?_
    -- no node is below `/proc`
    refine absurd hnode (hnone _ (joinName_ne_root hname.2.1) ?_)
    rw [hpaths]
    intro hmem
    simp only [List.mem_cons, Option.some.injEq, List.not_mem_nil, or_false] at hmem
    have hbyte : (joinName (str "/proc/7") name)[1]? = some 112 := rfl
    have hdir : (kernelCaller quietKernel [loneTask 7] (str "/")).resolve (str "/proc/7") = str "/proc/7" := by decide
    rw [hdir] at hmem
    rcases hmem with h | h | h <;> rw [h] at hbyte <;> exact absurd hbyte (by decide)
  · intro hagree
    have hcons := (listing_agrees_iff hreach quietKernel [loneTask 7] (str "/") (str "/") rfl hroot (by decide)
      (by decide) (hout hroot)).1.mp hagree
    refine hnone (str "/proc") (by decide) ?_ (hcons.2 rfl).1
    rw [hpaths]
    decide

/-- `/proc` is listed with `net/dev`. -/
theorem listing_of_proc : ¬∀ v, vfsSystem.Reach v → ∀ k tasks cwd dir, dir.head? = some slash →
    ∀ records bufsize out, dirRecords v (kernelCaller k tasks cwd) dir = .ret (some records) →
      recordsLen records ≤ bufsize → bufsize < 4294967296 →
      vfsGetdents v (kernelCaller k tasks cwd) dir bufsize = .ret (some out) →
      ListingAgrees v (kernelCaller k tasks cwd) dir out := by
  intro hall
  have h := hall (emptyVfs (memoryOf 0) none) (.init ⟨_, _, rfl⟩) quietKernel [] (str "/") (str "/proc") rfl
    (synthRecords [] .procDir) 256 (emitAll 256 (synthRecords [] .procDir)) rfl (by decide) (by decide) rfl
  have hname := ((h.2 (str "net/dev")).mp (by decide)).1
  exact hname.1 (by decide)

end LiteBSD
