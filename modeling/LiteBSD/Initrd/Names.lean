/-
# `LiteBSD.Initrd.Names` — the paths behind the names of an archive

A name in a header is a text; what counts of it are its components
(`entryNames`).  `normalize_path` keeps them, the prefixes that
`ensure_parent_dirs` takes at the slashes have their initial segments
(`parentDirs_iff`, `components_split`), and `vfs_resolve_path` makes a
plain path of every such text (`resolve_plain`).
-/
import LiteBSD.Initrd.Model
import LiteBSD.Vfs.Reference

namespace LiteBSD

/-- A name without `./` in front. -/
def stripDot (raw : CStr) : CStr := if raw.take 2 = [dot, slash] then raw.drop 2 else raw

/-- The components of the path that a name stands for. -/
def entryNames (raw : CStr) : List CStr := components (stripDot raw)

/-- The path that the name of a link's target spells. -/
def spelledPath (lname : CStr) : CStr :=
  if lname.head? = some slash then lname else slash :: stripDot lname

section Text

variable {pre post : List CStr} {s : CStr}

/-- A text is taken apart at its slashes, the first one first. -/
@[elab_as_elim]
theorem text_induction {P : CStr → Prop} (nil : P []) (cons : ∀ s, P s → P (slash :: s))
    (name : ∀ comp, comp ≠ [] → slash ∉ comp → P comp)
    (first : ∀ comp s, comp ≠ [] → slash ∉ comp → P s → P (slash :: s) → P (comp ++ slash :: s)) (s : CStr) : P s := by
  induction hlen : s.length using Nat.strong_induction_on generalizing s with
  | _ len ih =>
    subst hlen
    have hshort : ∀ rest : CStr, rest.length < s.length → P rest := fun rest hlt => ih rest.length hlt rest rfl
    obtain ⟨comp, rest, rfl, hcomp, hrest⟩ := first_split s
    rcases hrest with rfl | hhead
    · rw [List.append_nil]
      by_cases hnil : comp = []
      · rw [hnil]
        exact nil
      · exact name comp hnil hcomp
    · cases rest with
      | nil => cases hhead
      | cons b rest =>
        obtain rfl : b = slash := Option.some.inj hhead
        by_cases hnil : comp = []
        · subst hnil
          exact cons rest (hshort rest (Nat.lt_succ_self _))
        · have hlt : (slash :: rest).length < (comp ++ slash :: rest).length := by
            rw [List.length_append]
            exact Nat.lt_add_of_pos_left (List.length_pos_iff.mpr hnil)
          exact first comp rest hnil hcomp (hshort _ (Nat.lt_of_succ_lt hlt)) (hshort _ hlt)

/-- Slashes at the end do not count. -/
theorem components_snoc_slash (s : CStr) : components (s ++ [slash]) = components s := by
  rw [components_append, components_nil, List.append_nil]

/-- The first component, with a slash behind it. -/
theorem components_first_slash {comp : CStr} (hne : comp ≠ []) (hcomp : slash ∉ comp) (s : CStr) :
    components (comp ++ slash :: s) = comp :: components s := by
  rw [components_append, components_name hne hcomp, List.singleton_append]

/-- A text that does not end in a slash has a component. -/
theorem components_ne_nil_of_last (hne : s ≠ []) (hlast : s.getLast? ≠ some slash) : components s ≠ [] := by
  induction s using text_induction with
  | nil => exact absurd rfl hne
  | cons s ih =>
    rw [components_slash]
    by_cases hnil : s = []
    · rw [hnil] at hlast
      exact absurd rfl hlast
    · rw [List.getLast?_cons_of_ne_nil hnil] at hlast
      exact ih hnil hlast
  | name comp hnil hcomp =>
    rw [components_name hnil hcomp]
    exact List.cons_ne_nil _ _
  | first comp s hnil hcomp _ _ =>
    rw [components_first_slash hnil hcomp]
    exact List.cons_ne_nil _ _

/-- Where the components are parted, there is a slash. -/
theorem components_split (hpre : pre ≠ []) (hpost : post ≠ []) (h : components s = pre ++ post) :
    ∃ u w, s = u ++ slash :: w ∧ u ≠ [] ∧ components u = pre ∧ components w = post := by
  induction s using text_induction generalizing pre with
  | nil => exact absurd (List.append_eq_nil_iff.mp h.symm).1 hpre
  | cons s ih =>
    rw [components_slash] at h
    obtain ⟨u, w, rfl, _, hu, hw⟩ := ih hpre h
    exact ⟨slash :: u, w, rfl, List.cons_ne_nil _ _, (components_slash u).trans hu, hw⟩
  | name comp hnil hcomp =>
    rw [components_name hnil hcomp] at h
    have hlen := congrArg List.length h
    rw [List.length_append, List.length_singleton] at hlen
    have hpos := List.length_pos_iff.mpr hpre
    have hpos' := List.length_pos_iff.mpr hpost
    omega
  | first comp s hnil hcomp _ ih =>
    rw [components_first_slash hnil hcomp] at h
    obtain ⟨c, pre, rfl⟩ := List.exists_cons_of_ne_nil hpre
    obtain ⟨hc, htail⟩ := List.cons.inj h
    subst hc
    by_cases hlast : pre = []
    · subst hlast
      exact ⟨comp, s, rfl, hnil, components_name hnil hcomp, htail⟩
    · obtain ⟨u, w, hsplit, hu, hpre', hpost'⟩ := ih hlast ((components_slash s).trans htail)
      have hhead : u.head? = some slash := by
        rw [← List.head?_append_of_ne_nil u hu, ← hsplit]
        rfl
      refine ⟨comp ++ u, w, by rw [hsplit, List.append_assoc], List.append_ne_nil_of_left_ne_nil hnil u, ?_, hpost'⟩
      rw [components_first hnil hcomp (.inr hhead), hpre']

/-- The plain path is not longer than the text with a slash in front. -/
theorem length_pathOf_components (s : CStr) : (pathOf (components s)).length ≤ s.length + 1 := by
  induction s using text_induction with
  | nil => exact Nat.zero_le _
  | cons s ih =>
    rw [components_slash]
    exact Nat.le_succ_of_le ih
  | name comp hnil hcomp =>
    rw [components_name hnil hcomp, pathOf, pathOf, List.append_nil]
    exact Nat.le_refl _
  | first comp s hnil hcomp ih _ =>
    rw [components_first_slash hnil hcomp, pathOf, List.length_cons, List.length_append, List.length_append,
      List.length_cons]
    omega

end Text

/-! ## Resolution -/

section Paths

variable {path d raw : CStr}

/-- An absolute path of proper names resolves to the plain path, from
wherever it is resolved. -/
theorem resolve_plain (cwd : CStr) (hhead : path.head? = some slash)
    (hproper : ∀ name ∈ components path, ProperName name) (hlen : path.length ≤ 255) :
    vfsResolvePath cwd path = dirPath (components path) := by
  obtain ⟨b, rest, rfl⟩ := List.exists_cons_of_ne_nil (fun hnil : path = [] => by rw [hnil] at hhead; cases hhead)
  obtain rfl : b = slash := Option.some.inj hhead
  have hroot : NormalPath [slash] := ⟨[], List.forall_mem_nil _, rfl⟩
  have hnames : ∀ comps : List CStr, (∀ name ∈ comps, ProperName name) → ∀ start,
      comps.foldl refStep start = start ++ comps := by
    intro comps
    induction comps with
    | nil => exact fun _ start => (List.append_nil start).symm
    | cons comp comps ih =>
      intro hcomps start
      have hcomp := hcomps comp List.mem_cons_self
      rw [List.foldl_cons, ih fun name hname => hcomps name (List.mem_cons_of_mem _ hname)]
      rw [refStep, if_neg hcomp.ne_dot, if_neg hcomp.ne_dots, List.append_assoc, List.singleton_append]
  have hwalk : ∀ pre, pre <+: components (slash :: rest) → refNames [slash] (slash :: rest) pre = pre := by
    intro pre hpre
    rw [refNames, refStart, if_pos hhead]
    exact hnames pre (fun name hname => hproper name (hpre.subset hname)) []
  have hroom : ∀ pre, pre <+: components (slash :: rest) → (dirPath (refNames [slash] (slash :: rest) pre)).length ≤ 255 := by
    intro pre hpre
    rw [hwalk pre hpre]
    obtain ⟨post, hsplit⟩ := hpre
    have hshort := length_pathOf_components rest
    rw [← components_slash, ← hsplit, pathOf_append, List.length_append] at hshort
    rw [List.length_cons] at hlen
    unfold dirPath
    split
    · decide
    · omega
  calc vfsResolvePath cwd (slash :: rest) = vfsResolvePath [slash] (slash :: rest) := rfl
    _ = refResolve [slash] (slash :: rest) :=
      resolve_eq_reference hroot (by decide) (fun comp hcomp => (hproper comp hcomp).short) hroom
    _ = dirPath (components (slash :: rest)) := by rw [refResolve, hwalk _ (List.prefix_refl _)]

/-! ## Names in headers -/

/-- The directories that are made on the way are what is in front of a
slash. -/
theorem parentDirs_iff (hlen : path.length ≤ 255) : d ∈ parentDirs path ↔ d ≠ [] ∧ ∃ w, path = d ++ slash :: w := by
  unfold parentDirs
  rw [List.mem_map, Nat.min_eq_left hlen]
  constructor
  · rintro ⟨i, hi, rfl⟩
    obtain ⟨hrange, hcond⟩ := List.mem_filter.mp hi
    obtain ⟨hpos, hslash⟩ := of_decide_eq_true hcond
    have hlt := List.mem_range.mp hrange
    refine ⟨?_, path.drop (i + 1), ?_⟩
    · apply List.ne_nil_of_length_pos
      rw [List.length_take]
      omega
    · have hget : path[i] = slash := Option.some.inj ((List.getElem?_eq_getElem hlt).symm.trans hslash)
      rw [← hget, ← List.drop_eq_getElem_cons hlt, List.take_append_drop]
  · rintro ⟨hne, w, rfl⟩
    refine ⟨d.length, List.mem_filter.mpr ⟨List.mem_range.mpr ?_, decide_eq_true ⟨List.length_pos_iff.mpr hne, ?_⟩⟩,
      List.take_left⟩
    · rw [List.length_append, List.length_cons]
      omega
    · rw [List.getElem?_append_right (Nat.le_refl _), Nat.sub_self]
      rfl

theorem mem_parentDirs (hhead : path.head? = some slash) (hlen : path.length ≤ 255) (h : d ∈ parentDirs path) :
    d.head? = some slash ∧ d.length ≤ 255 ∧ components d <+: components path ∧
      (path.getLast? ≠ some slash → components d ≠ components path) := by
  obtain ⟨hne, w, rfl⟩ := (parentDirs_iff hlen).mp h
  rw [List.length_append] at hlen
  rw [components_append]
  refine ⟨(List.head?_append_of_ne_nil d hne).symm.trans hhead, by omega, List.prefix_append _ _, fun hlast heq => ?_⟩
  have hw : components w = [] := List.append_right_eq_self.mp heq.symm
  rw [List.getLast?_append_of_ne_nil _ (List.cons_ne_nil _ _)] at hlast
  by_cases hnil : w = []
  · rw [hnil] at hlast
    exact hlast rfl
  · rw [List.getLast?_cons_of_ne_nil hnil] at hlast
    exact components_ne_nil_of_last hnil hlast hw

theorem exists_parentDir (hlen : path.length ≤ 255) {pre : List CStr} (hpre : pre <+: components path) (hne : pre ≠ [])
    (hproper : pre ≠ components path) : ∃ d ∈ parentDirs path, components d = pre := by
  obtain ⟨post, hsplit⟩ := hpre
  have hpost : post ≠ [] := by
    rintro rfl
    exact hproper ((List.append_nil pre).symm.trans hsplit)
  obtain ⟨u, w, hpath, hu, hcomps, _⟩ := components_split hne hpost hsplit.symm
  exact ⟨u, (parentDirs_iff hlen).mpr ⟨hu, w, hpath⟩, hcomps⟩

theorem stripDot_suffix (raw : CStr) : stripDot raw <:+ raw := by
  unfold stripDot
  split
  · exact List.drop_suffix 2 raw
  · exact List.suffix_refl raw

/-- What `normalize_path` makes of a name that is short enough. -/
theorem normalizePath_spec (isDir : Bool) (hlen : raw.length < 100) (hproper : ∀ name ∈ entryNames raw, ProperName name) :
    entryNames raw = [] ∧ normalizePath raw 256 isDir = none ∨
      ∃ path, normalizePath raw 256 isDir = some path ∧ path.head? = some slash ∧ path.length ≤ 255 ∧
        components path = entryNames raw ∧ (isDir = false → raw.getLast? ≠ some slash → path.getLast? ≠ some slash) := by
  have hdot : raw ≠ [dot] := by
    rintro rfl
    exact (hproper [dot] (by decide)).ne_dot rfl
  have hsuffix : (stripDot raw).dropWhile (· = slash) <:+ raw :=
    (List.dropWhile_suffix _).trans (stripDot_suffix raw)
  have hshort := hsuffix.length_le
  have hnames : components ((stripDot raw).dropWhile (· = slash)) = entryNames raw := components_dropWhile
  unfold normalizePath
  rw [if_neg hdot]
  dsimp only
  rw [← stripDot]
  generalize (stripDot raw).dropWhile (· = slash) = body at hsuffix hshort hnames ⊢
  by_cases hnil : body = []
  · rw [hnil, components_nil] at hnames
    exact .inl ⟨hnames.symm, if_pos hnil⟩
  right
  have hlast : (slash :: body).getLast? = raw.getLast? := by
    obtain ⟨front, rfl⟩ := hsuffix
    rw [List.getLast?_cons_of_ne_nil hnil, List.getLast?_append_of_ne_nil _ hnil]
  rw [if_neg hnil, List.take_of_length_le (by omega)]
  by_cases hstrip : isDir = true ∧ (slash :: body).length > 1 ∧ (slash :: body).getLast? = some slash
  · -- the slash at the end of a directory comes off
    have hsplit : (slash :: body).dropLast ++ [slash] = slash :: body :=
      List.dropLast_append_getLast? slash hstrip.2.2
    have hcomps : components (slash :: body).dropLast = entryNames raw := by
      rw [← components_snoc_slash, hsplit, components_slash, hnames]
    refine ⟨(slash :: body).dropLast, congrArg some (if_pos hstrip), ?_, ?_, hcomps,
      fun hfile => absurd hstrip.1 (by simp [hfile])⟩
    · obtain ⟨b, body, rfl⟩ := List.exists_cons_of_ne_nil hnil
      rfl
    · rw [List.length_dropLast, List.length_cons]
      omega
  · refine ⟨slash :: body, congrArg some (if_neg hstrip), rfl, ?_, (components_slash body).trans hnames,
      fun _ hraw => hlast ▸ hraw⟩
    rw [List.length_cons]
    omega

/-- Where the target of a link is looked for. -/
theorem targetPath_eq {lname : CStr} (hlen : lname.length < 100) : targetPath lname = spelledPath lname := by
  unfold targetPath spelledPath stripDot
  by_cases hdot : lname.take 2 = [dot, slash]
  · have hhead : lname.head? ≠ some slash := by
      rw [← List.take_append_drop 2 lname, hdot]
      exact fun h => absurd (Option.some.inj h) (by decide)
    rw [if_pos hdot, if_neg hhead, if_pos hdot, List.take_of_length_le]
    rw [List.length_drop]
    omega
  · rw [if_neg hdot, if_neg hdot]
    by_cases hhead : lname.head? = some slash
    · rw [if_neg (not_not.mpr hhead), if_pos hhead, List.take_of_length_le (by omega)]
    · rw [if_pos hhead, if_neg hhead, List.take_of_length_le (by omega)]

end Paths

end LiteBSD
