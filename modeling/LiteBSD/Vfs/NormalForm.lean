/-
# `LiteBSD.Vfs.NormalForm` — which results of a resolution are in normal form

What `vfs_resolve_path` writes should be in normal form and resolve to itself.
It is and it does (`ResolvedWell`), unless something is cut short for want of
room and nothing behind it takes that away again.  Whether this happens can be
counted from `cwd` and the components of `path` (`Room`):

  * a component that finds room for its slash alone, or for no more than the
    dots at its front, has a `..` behind it (`Recovered`);
  * where 254 of the 255 bytes of `cwd` end in a slash or in such dots, the
    path goes on from there;
  * a name of `cwd` that is longer than the walk takes is taken away.

`resolved_normal_iff` says that nothing else goes wrong.  On the way there is
the stack of `LiteBSD.Vfs.Components`: a clean one is a result in normal form
(`resolvedWell_iff_cutClean`), and the counting tells which one is clean
(`cutClean_iff`).
-/
import LiteBSD.Vfs.Reference

namespace LiteBSD

/-! ## Clean stacks -/

/-- Nothing is left of the walk that does not belong there: no slash behind
the last name, no `.` or `..` that is all there was room for of a longer name,
and no name of the directory that is too long to be taken as one. -/
structure CutClean (st : NameStack) : Prop where
  tail : st.tail = false
  last : st.names.getLast? ≠ some [dot] ∧ st.names.getLast? ≠ some [dot, dot]
  short : ∀ name ∈ st.names, name.length ≤ 63

/-- The stack behind the result; the empty path leads to the directory. -/
def resultStack (cwd path : CStr) : NameStack := if path = [] then stackOf cwd else endStack cwd path

/-- The result of a resolution ought to be in normal form, of a length the
buffers hold, and to resolve to itself. -/
def ResolvedWell (cwd path : CStr) : Prop :=
  NormalPath (vfsResolvePath cwd path) ∧ (vfsResolvePath cwd path).length ≤ 255 ∧
    vfsResolvePath [slash] (vfsResolvePath cwd path) = vfsResolvePath cwd path

section Normal

variable {cwd path : CStr} {st : NameStack}

/-- The stack behind the result fits, and is its text. -/
theorem resultStack_spec (hcwd : NormalPath cwd) (hlen : cwd.length ≤ 255) (path : CStr) :
    (resultStack cwd path).Fits ∧ (resultStack cwd path).TopCut ∧ vfsResolvePath cwd path = (resultStack cwd path).text := by
  unfold resultStack
  split
  · rename_i hnil
    subst hnil
    obtain ⟨names, hn, rfl⟩ := hcwd
    have hne : dirPath names ≠ [] := by
      rw [NameStack.dirPath_eq]
      split
      · exact List.cons_ne_nil _ _
      · assumption
    have hpath : (pathOf names).length ≤ 255 := by
      rw [dirPath] at hlen
      split at hlen
      · rename_i hnil
        rw [hnil]
        exact Nat.zero_le _
      · exact hlen
    rw [stackOf_dirPath (IsName.parts hn)]
    refine ⟨.of_names (IsName.parts hn) hpath, ⟨fun n hmem => hn n (List.mem_of_mem_dropLast hmem), fun _ => hn⟩, ?_⟩
    unfold vfsResolvePath
    rw [if_pos rfl, if_neg hne]
    exact (List.take_of_length_le hlen).trans (List.append_nil _).symm
  · rename_i hne
    exact ⟨endStack_fits hcwd hlen path, endStack_topCut hcwd hlen path, resolve_eq_text hcwd hlen hne⟩

/-- With a clean end, every name is one that the walk takes as it is. -/
theorem CutClean.proper (h : CutClean st) (hfits : st.Fits) (htop : st.TopCut) : ∀ name ∈ st.names, ProperName name := by
  intro name hname
  obtain ⟨hne, hslash⟩ := hfits.names name hname
  have hnil : st.names ≠ [] := List.ne_nil_of_mem hname
  rw [← List.dropLast_append_getLast hnil] at hname
  rcases List.mem_append.mp hname with hbelow | hlast
  · have hisName := htop.below name hbelow
    exact ⟨hne, hslash, h.short name (List.mem_of_mem_dropLast hbelow), hisName.2.2.1, hisName.2.2.2⟩
  · rw [List.mem_singleton.mp hlast] at hne hslash ⊢
    have hget := List.getLast?_eq_some_getLast hnil
    have hclean := h.last
    rw [hget] at hclean
    exact ⟨hne, hslash, h.short _ (List.getLast_mem hnil), fun he => hclean.1 (congrArg some he),
      fun he => hclean.2 (congrArg some he)⟩

end Normal

/-- The result is in normal form and resolves to itself if the walk ends
cleanly, and only then: what is on the stack is what is in the buffer. -/
theorem resolvedWell_iff_cutClean {cwd path : CStr} (hcwd : NormalPath cwd) (hlen : cwd.length ≤ 255) :
    ResolvedWell cwd path ↔ CutClean (resultStack cwd path) := by
  obtain ⟨hfits, htop, htext⟩ := resultStack_spec hcwd hlen path
  unfold ResolvedWell
  rw [htext]
  generalize resultStack cwd path = st at hfits htop
  constructor
  · rintro ⟨hnormal, -, hagain⟩
    obtain ⟨heq, hnames⟩ := hnormal.components
    rw [hfits.components] at heq hnames
    refine ⟨?_, ⟨fun he => ?_, fun he => ?_⟩, fun name hname => ?_⟩
    · -- the text is that of the names alone
      cases htail : st.tail with
      | false => rfl
      | true =>
          rw [NameStack.text, htail] at heq
          have hlength := congrArg List.length heq
          rw [List.length_append] at hlength
          exact absurd hlength (by simp)
    · exact (hnames _ (List.mem_of_getLast? he)).2.2.1 rfl
    · exact (hnames _ (List.mem_of_getLast? he)).2.2.2 rfl
    · -- walked over once more, every name comes from the walk
      have hroot : NormalPath [slash] := ⟨[], List.forall_mem_nil _, rfl⟩
      have habs : startStack [slash] st.text = ⟨[], false⟩ := if_pos hnormal.head
      have hwalked := resolve_eq_text hroot (by decide) (NameStack.text_ne_nil st)
      rw [hagain] at hwalked
      have hsame : (endStack [slash] st.text).names = st.names := by
        rw [← (endStack_fits hroot (by decide) st.text).components, ← hwalked, hfits.components]
      have hshort := @short_above (startStack [slash] st.text) (pathNames st.text) 0
        (fun c hc => (mem_namesIn hc).2.2) (by rw [habs]; exact List.forall_mem_nil _) name
      rw [← endStack, hsame, List.drop_zero] at hshort
      exact hshort hname
  · intro hclean
    have hproper := hclean.proper hfits htop
    have hdir : st.text = dirPath st.names := by
      rw [NameStack.text, hclean.tail]
      exact List.append_nil _
    refine ⟨⟨st.names, fun n hn => ?_, hdir⟩, hfits.text_length, ?_⟩
    · have hn' := hproper n hn
      exact ⟨hn'.no_slash, hn'.ne_nil, hn'.ne_dot, hn'.ne_dots⟩
    · rw [hdir]
      by_cases hnil : st.names = []
      · rw [hnil]
        decide
      · rw [dirPath, if_neg hnil]
        exact vfsResolvePath_pathOf _ hnil hproper hfits.length

/-! ## The room there is -/

/-- The text the walk starts from. -/
def startText (cwd path : CStr) : CStr :=
  if path = [] then cwd else if path.head? = some slash then [slash] else cwd.take (pathMax - 2)

/-- The bytes names of these lengths take, each with the slash in front of it. -/
def filled (lengths : List Nat) : Nat := (lengths.map (· + 1)).sum

/-- What a component makes of the lengths: a name gets the room there is. -/
def lengthStep (lengths : List Nat) (comp : CStr) : List Nat :=
  if comp = [dot] then lengths
  else if comp = [dot, dot] then lengths.dropLast
  else if filled lengths ≤ 253 then lengths ++ [min (254 - filled lengths) comp.length]
  else lengths

/-- Behind so many bytes there is room for the slash of the name alone, or for
nothing but the dots at its front. -/
def CutToDots (used : Nat) (comp : CStr) : Prop :=
  comp ≠ [dot] ∧ comp ≠ [dot, dot] ∧
    (used = 254 ∨ used = 253 ∧ comp.head? = some dot ∨ used = 252 ∧ comp.take 2 = [dot, dot])

/-- Whatever is cut to its slash or its dots, a `..` behind it takes away. -/
def Recovered : List Nat → List CStr → Prop
  | _, [] => True
  | lengths, comp :: rest =>
      (CutToDots (filled lengths) comp → [dot, dot] ∈ rest) ∧ Recovered (lengthStep lengths comp) rest

/-- How many names are left when the fewest are. -/
def lowest : List Nat → List CStr → Nat
  | lengths, [] => lengths.length
  | lengths, comp :: rest => min lengths.length (lowest (lengthStep lengths comp) rest)

/-- The buffer is long enough for the walk along `path`, or else what it cuts
short is taken away again. -/
structure Room (cwd path : CStr) : Prop where
  /-- `cwd` cut behind a slash -/
  slash_left : startText cwd path ≠ [slash] → (startText cwd path).getLast? = some slash →
    ∃ comp ∈ pathNames path, comp ≠ [dot]
  /-- `cwd` cut behind dots -/
  dots_left : (components (startText cwd path)).getLast? = some [dot] ∨
    (components (startText cwd path)).getLast? = some [dot, dot] → [dot, dot] ∈ pathNames path
  recovered : Recovered ((components (startText cwd path)).map List.length) (pathNames path)
  short : ∀ name ∈ (components (startText cwd path)).take
    (lowest ((components (startText cwd path)).map List.length) (pathNames path)), name.length ≤ 63

instance (used : Nat) (comp : CStr) : Decidable (CutToDots used comp) :=
  inferInstanceAs (Decidable (_ ∧ _ ∧ _))

instance decRecovered : (lengths : List Nat) → (comps : List CStr) → Decidable (Recovered lengths comps)
  | _, [] => isTrue trivial
  | lengths, comp :: rest =>
      have := decRecovered (lengthStep lengths comp) rest
      inferInstanceAs (Decidable ((CutToDots (filled lengths) comp → [dot, dot] ∈ rest) ∧
        Recovered (lengthStep lengths comp) rest))

section Counting

variable {cwd path comp : CStr} {st : NameStack} {comps : List CStr}

theorem filled_names (names : List CStr) : filled (names.map List.length) = (pathOf names).length := by
  induction names with
  | nil => rfl
  | cons name names ih =>
      rw [pathOf, List.length_cons, List.length_append, ← ih]
      simp only [filled, List.map_cons, List.sum_cons]
      omega

theorem filled_snoc (lengths : List Nat) (n : Nat) : filled (lengths ++ [n]) = filled lengths + (n + 1) := by
  unfold filled
  rw [List.map_append, List.sum_append, List.map_singleton, List.sum_singleton]

/-- The lengths go with the stack. -/
theorem NameStack.Fits.step_lengths (h : st.Fits) (comp : CStr) :
    (st.step comp).names.map List.length = lengthStep (st.names.map List.length) comp := by
  unfold NameStack.step lengthStep NameStack.push
  rw [filled_names]
  dsimp only
  split
  · rfl
  split
  · exact List.map_dropLast ..
  cases htail : st.tail with
  | false =>
      rw [if_neg Bool.false_ne_true]
      split
      · rw [List.map_append, List.map_singleton, List.length_take]
      split <;> rfl
  | true =>
      -- the slash is there already
      rw [if_pos rfl]
      rcases h.tail htail with hused | hused
      · rw [if_pos hused, if_pos (by omega), hused, List.map_append, List.map_singleton, List.length_take]
      · rw [if_neg (by omega), if_neg (by omega)]

/-- Something is left on top that is no name. -/
def NameStack.Spoiled (st : NameStack) : Prop :=
  st.tail = true ∨ st.names.getLast? = some [dot] ∨ st.names.getLast? = some [dot, dot]

theorem cutClean_iff_spoiled : CutClean st ↔ ¬st.Spoiled ∧ ∀ name ∈ st.names, name.length ≤ 63 := by
  constructor
  · rintro ⟨htail, ⟨hdot, hdots⟩, hshort⟩
    refine ⟨?_, hshort⟩
    rintro (h | h | h)
    · exact Bool.false_ne_true (htail.symm.trans h)
    · exact hdot h
    · exact hdots h
  · rintro ⟨hspoiled, hshort⟩
    refine ⟨Bool.eq_false_iff.mpr fun h => hspoiled (.inl h), ⟨fun h => ?_, fun h => ?_⟩, hshort⟩
    · exact hspoiled (.inr (.inl h))
    · exact hspoiled (.inr (.inr h))

/-- Of a name that is longer, no more than its dots may be left. -/
theorem take_eq_dots {room : Nat} (hdot : comp ≠ [dot]) (hdots : comp ≠ [dot, dot]) :
    comp.take room = [dot] ∨ comp.take room = [dot, dot] ↔
      room = 1 ∧ comp.head? = some dot ∨ room = 2 ∧ comp.take 2 = [dot, dot] := by
  -- where all of the room is used, its length is that of the dots
  have hcut : ∀ dots : CStr, comp ≠ dots → comp.take room = dots → room = dots.length := by
    intro dots hne htake
    have hshort : room < comp.length := by
      by_contra hroom
      rw [List.take_of_length_le (Nat.le_of_not_lt hroom)] at htake
      exact hne htake
    rw [← htake, List.length_take_of_le (Nat.le_of_lt hshort)]
  have hone : comp.take 1 = [dot] ↔ comp.head? = some dot := by
    cases comp with
    | nil => exact ⟨nofun, nofun⟩
    | cons b rest => simp
  constructor
  · rintro (h | h)
    · have hroom : room = 1 := hcut [dot] hdot h
      exact .inl ⟨hroom, hone.mp (hroom ▸ h)⟩
    · have hroom : room = 2 := hcut [dot, dot] hdots h
      exact .inr ⟨hroom, hroom ▸ h⟩
  · rintro (⟨rfl, h⟩ | ⟨rfl, h⟩)
    · exact .inl (hone.mpr h)
    · exact .inr h

/-- What a name leaves of itself on top of the stack. -/
theorem NameStack.push_spoiled (h : st.Fits) (hdot : comp ≠ [dot]) (hdots : comp ≠ [dot, dot]) :
    (st.push comp).Spoiled ↔
      CutToDots (pathOf st.names).length comp ∨ (pathOf st.names).length = 255 ∧ st.Spoiled := by
  have hlen := h.length
  have hsnoc : ∀ room, NameStack.Spoiled ⟨st.names ++ [comp.take room], false⟩ ↔
      room = 1 ∧ comp.head? = some dot ∨ room = 2 ∧ comp.take 2 = [dot, dot] := by
    intro room
    unfold NameStack.Spoiled
    rw [List.getLast?_concat, Option.some.injEq, Option.some.injEq, or_iff_right Bool.false_ne_true,
      take_eq_dots hdot hdots]
  unfold NameStack.push CutToDots
  dsimp only
  split
  · -- behind a slash there is room for one byte, or for none
    rename_i htail
    rcases h.tail htail with hused | hused
    · rw [if_pos hused, hsnoc, hused]
      simp [hdot, hdots]
    · rw [if_neg (by omega), hused]
      simp [hdot, hdots, NameStack.Spoiled, htail]
  split
  · rename_i hroom
    have hone : 254 - (pathOf st.names).length = 1 ↔ (pathOf st.names).length = 253 := by omega
    have htwo : 254 - (pathOf st.names).length = 2 ↔ (pathOf st.names).length = 252 := by omega
    have hfull : (pathOf st.names).length ≠ 254 ∧ (pathOf st.names).length ≠ 255 := by omega
    rw [hsnoc, hone, htwo]
    simp [hdot, hdots, hfull.1, hfull.2]
  split
  · rename_i hused
    simp [hdot, hdots, hused, NameStack.Spoiled]
  · have hused : (pathOf st.names).length = 255 := by omega
    simp [hused]

/-- A stack is spoiled near the end of the buffer only, and a name below the
top never is what spoils it. -/
theorem NameStack.TopCut.pop_spoiled (htop : st.TopCut) : ¬NameStack.Spoiled ⟨st.names.dropLast, false⟩ := by
  rintro (h | h | h)
  · exact Bool.false_ne_true h
  · exact (htop.below _ (List.mem_of_getLast? h)).2.2.1 rfl
  · exact (htop.below _ (List.mem_of_getLast? h)).2.2.2 rfl

/-- Where a name is cut to its dots, the buffer is full. -/
theorem NameStack.Fits.push_fills (h : st.Fits) (hdot : comp ≠ [dot]) (hdots : comp ≠ [dot, dot])
    (hcut : CutToDots (pathOf st.names).length comp ∨ (pathOf st.names).length = 255) :
    253 < (pathOf (st.push comp).names).length := by
  have hstep : st.step comp = st.push comp := (if_neg hdot).trans (if_neg hdots)
  rw [← hstep, ← filled_names, h.step_lengths, lengthStep, if_neg hdot, if_neg hdots, filled_names]
  split
  · rw [filled_snoc, filled_names]
    rcases hcut with ⟨-, -, hused | ⟨hused, -⟩ | ⟨hused, htake⟩⟩ | hused
    · omega
    · omega
    · -- both of the dots are there
      have hlen := congrArg List.length htake
      rw [List.length_take, List.length_cons, List.length_singleton] at hlen
      omega
    · omega
  · rw [filled_names]
    omega

/-- What the walk ends with is not spoiled if the path takes away what spoils
the stack it starts from, and every name that is cut to its dots. -/
theorem walk_spoiled_iff (h : st.Fits) (htop : st.TopCut) (hcomps : ∀ comp ∈ comps, comp ≠ [] ∧ slash ∉ comp) :
    ¬(comps.foldl NameStack.step st).Spoiled ↔
      (st.Spoiled → (253 < (pathOf st.names).length → [dot, dot] ∈ comps) ∧ ∃ comp ∈ comps, comp ≠ [dot]) ∧
        Recovered (st.names.map List.length) comps := by
  induction comps generalizing st with
  | nil => simp [Recovered]
  | cons comp comps ih =>
      obtain ⟨hne, hslash⟩ := hcomps comp List.mem_cons_self
      have hrest := ih (h.step hne hslash) (htop.step hne hslash) fun c hc => hcomps c (List.mem_cons_of_mem _ hc)
      rw [List.foldl_cons, hrest, Recovered, h.step_lengths, filled_names, List.mem_cons, List.exists_mem_cons_iff]
      have htake : [dot, dot] ∈ comps → ∃ comp ∈ comps, comp ≠ [dot] := fun hmem => ⟨_, hmem, by decide⟩
      by_cases hdot : comp = [dot]
      · have hstep : st.step comp = st := if_pos hdot
        rw [hstep, hdot]
        simp [CutToDots]
      by_cases hdots : comp = [dot, dot]
      · -- whatever there was, it is gone
        have hstep : st.step comp = ⟨st.names.dropLast, false⟩ := (if_neg hdot).trans (if_pos hdots)
        have hclean := htop.pop_spoiled
        rw [hstep, hdots]
        simp [hclean, CutToDots]
      have hstep : st.step comp = st.push comp := (if_neg hdot).trans (if_neg hdots)
      have hroom : (pathOf st.names).length = 254 → CutToDots (pathOf st.names).length comp :=
        fun hused => ⟨hdot, hdots, .inl hused⟩
      have hcut := h.push_fills hdot hdots
      have hlen := h.length
      rw [hstep, NameStack.push_spoiled h hdot hdots]
      constructor
      · rintro ⟨hback, hrec⟩
        have hdrop : CutToDots (pathOf st.names).length comp → [dot, dot] ∈ comps :=
          fun hc => (hback (.inl hc)).1 (hcut (.inl hc))
        refine ⟨fun hst => ⟨fun hused => .inr ?_, .inl hdot⟩, hdrop, hrec⟩
        by_cases hfull : (pathOf st.names).length = 255
        · exact (hback (.inr ⟨hfull, hst⟩)).1 (hcut (.inr hfull))
        · exact hdrop (hroom (by omega))
      · rintro ⟨hback, hdrop, hrec⟩
        refine ⟨?_, hrec⟩
        rintro (hc | ⟨hfull, hst⟩)
        · exact ⟨fun _ => hdrop hc, htake (hdrop hc)⟩
        · have hmem : [dot, dot] ∈ comps := ((hback hst).1 (by omega)).resolve_left (Ne.symm hdots)
          exact ⟨fun _ => hmem, htake hmem⟩

theorem lowest_le (lengths : List Nat) (comps : List CStr) : lowest lengths comps ≤ lengths.length := by
  cases comps with
  | nil => exact Nat.le_refl _
  | cons comp comps => exact Nat.min_le_left _ _

/-- A name that is taken from the path is short enough: too long are only names
that were there at first and are not taken away. -/
theorem walk_short_iff (h : st.Fits) (hcomps : ∀ comp ∈ comps, comp ≠ [] ∧ slash ∉ comp ∧ comp.length ≤ componentMax) :
    (∀ name ∈ (comps.foldl NameStack.step st).names, name.length ≤ 63) ↔
      ∀ name ∈ st.names.take (lowest (st.names.map List.length) comps), name.length ≤ 63 := by
  induction comps generalizing st with
  | nil => rw [List.foldl_nil, lowest, List.length_map, List.take_length]
  | cons comp comps ih =>
      obtain ⟨hne, hslash, hshort⟩ := hcomps comp List.mem_cons_self
      have hrest := ih (h.step hne hslash) fun c hc => hcomps c (List.mem_cons_of_mem _ hc)
      have hlow := lowest_le (lengthStep (st.names.map List.length) comp) comps
      rw [List.foldl_cons, hrest, lowest, h.step_lengths, List.length_map, Nat.min_comm, ← List.take_eq_take_min]
      rw [← h.step_lengths, List.length_map] at hlow
      rw [← h.step_lengths]
      generalize lowest ((st.step comp).names.map List.length) comps = k at hlow ⊢
      have hsnoc : ∀ room, (∀ name ∈ (st.names ++ [comp.take room]).take k, name.length ≤ 63) ↔
          ∀ name ∈ st.names.take k, name.length ≤ 63 := by
        intro room
        rw [List.take_append]
        refine ⟨fun hall name hname => hall name (List.mem_append_left _ hname), fun hall name hname => ?_⟩
        rcases List.mem_append.mp hname with hold | hnew
        · exact hall name hold
        · rw [List.mem_singleton.mp (List.mem_of_mem_take hnew)]
          exact Nat.le_trans (List.length_take_le' _ _) hshort
      unfold NameStack.step at hlow ⊢
      by_cases hdot : comp = [dot]
      · rw [if_pos hdot]
      rw [if_neg hdot] at hlow ⊢
      by_cases hdots : comp = [dot, dot]
      · rw [if_pos hdots] at hlow ⊢
        dsimp only at hlow ⊢
        rw [List.length_dropLast] at hlow
        rw [List.dropLast_eq_take, List.take_take, Nat.min_eq_left hlow]
      rw [if_neg hdots]
      unfold NameStack.push
      dsimp only
      split
      · split
        · exact hsnoc _
        · exact Iff.rfl
      split
      · exact hsnoc _
      split
      · exact Iff.rfl
      · exact Iff.rfl

/-- The stack the walk starts from is that of the text it starts from. -/
theorem resultStack_eq (cwd path : CStr) :
    resultStack cwd path = (pathNames path).foldl NameStack.step (stackOf (startText cwd path)) := by
  unfold resultStack startText
  split
  · rename_i hnil
    rw [hnil]
    rfl
  · unfold endStack startStack
    split
    · rfl
    · rfl

/-- It fits, and what is cut is on top; a slash left over there is behind 253
bytes of names. -/
theorem startText_stack (hcwd : NormalPath cwd) (hlen : cwd.length ≤ 255) (path : CStr) :
    (stackOf (startText cwd path)).Fits ∧ (stackOf (startText cwd path)).TopCut ∧
      ((stackOf (startText cwd path)).tail = true → (pathOf (stackOf (startText cwd path)).names).length ≤ 253) := by
  unfold startText
  split
  · obtain ⟨hfits, htop, -⟩ := resultStack_spec hcwd hlen []
    have hself : resultStack cwd [] = stackOf cwd := if_pos rfl
    obtain ⟨names, hn, rfl⟩ := hcwd
    rw [hself] at hfits htop
    refine ⟨hfits, htop, ?_⟩
    rw [stackOf_dirPath (IsName.parts hn)]
    exact fun ht => absurd ht Bool.false_ne_true
  split
  · exact ⟨.of_names (List.forall_mem_nil _) (Nat.zero_le _),
      ⟨List.forall_mem_nil _, fun _ => List.forall_mem_nil _⟩, fun _ => Nat.zero_le _⟩
  · obtain ⟨hfits, htext, htop⟩ := hcwd.start hlen
    refine ⟨hfits, htop, fun hslash => ?_⟩
    have htail : (stackOf (cwd.take 254)).tail = true := hslash
    have hbytes := congrArg List.length htext
    rw [NameStack.text, htail, if_pos rfl, List.length_append, List.length_singleton, List.length_take] at hbytes
    have hdir : (pathOf (stackOf (cwd.take 254)).names).length ≤ (dirPath (stackOf (cwd.take 254)).names).length := by
      rw [NameStack.dirPath_eq]
      split
      · rename_i hnil
        rw [hnil]
        exact Nat.zero_le _
      · exact Nat.le_refl _
    exact Nat.le_trans hdir (by omega)

/-- The counting tells which walk ends with a clean stack. -/
theorem cutClean_iff (hcwd : NormalPath cwd) (hlen : cwd.length ≤ 255) (path : CStr) :
    CutClean (resultStack cwd path) ↔ Room cwd path := by
  obtain ⟨hfits, htop, hused⟩ := startText_stack hcwd hlen path
  have htail : (stackOf (startText cwd path)).tail = true ↔
      startText cwd path ≠ [slash] ∧ (startText cwd path).getLast? = some slash := decide_eq_true_iff
  have hroom : (components (startText cwd path)).getLast? = some [dot] ∨
      (components (startText cwd path)).getLast? = some [dot, dot] →
      253 < (pathOf (components (startText cwd path))).length := by
    intro hlast
    by_contra hless
    have hnames := htop.room (Nat.le_of_not_lt hless)
    rcases hlast with h | h
    · exact (hnames _ (List.mem_of_getLast? h)).2.2.1 rfl
    · exact (hnames _ (List.mem_of_getLast? h)).2.2.2 rfl
  have hpath : ∀ comp ∈ pathNames path, comp ≠ [] ∧ slash ∉ comp ∧ comp.length ≤ componentMax := fun _ => mem_namesIn
  rw [cutClean_iff_spoiled, resultStack_eq, walk_spoiled_iff hfits htop fun c hc => mem_pathNames hc,
    walk_short_iff hfits hpath]
  constructor
  · rintro ⟨⟨hstart, hrec⟩, hshort⟩
    refine ⟨fun hroot hlast => ?_, fun hlast => ?_, hrec, hshort⟩
    · exact (hstart (.inl (htail.mpr ⟨hroot, hlast⟩))).2
    · exact (hstart (.inr hlast)).1 (hroom hlast)
  · rintro ⟨hslash, hdots, hrec, hshort⟩
    refine ⟨⟨?_, hrec⟩, hshort⟩
    rintro (hleft | hleft)
    · obtain ⟨hroot, hlast⟩ := htail.mp hleft
      exact ⟨fun hless => absurd (hused hleft) (Nat.not_le.mpr hless), hslash hroot hlast⟩
    · exact ⟨fun _ => hdots hleft, [dot, dot], hdots hleft, by decide⟩

end Counting

/-- The result is in normal form and resolves to itself if there is room for
the names, or what is cut short is taken away, and only then. -/
theorem resolved_normal_iff {cwd path : CStr} (hcwd : NormalPath cwd) (hlen : cwd.length ≤ 255) :
    ResolvedWell cwd path ↔ Room cwd path :=
  (resolvedWell_iff_cutClean hcwd hlen).trans (cutClean_iff hcwd hlen path)

/-- The names of a directory of 254 bytes. -/
def fullDirectory : List CStr := [longName 0, longName 0, longName 0, (longName 0).take 61]

/-- A slash is left over there, too, until the next component takes it away. -/
theorem full_in_normal_form : ResolvedWell (dirPath fullDirectory) (str "b/../x/./..") :=
  (resolved_normal_iff ⟨fullDirectory, by decide, rfl⟩ (by decide +kernel)).mpr
    ⟨by decide +kernel, by decide +kernel, by decide +kernel, by decide +kernel⟩

/-- With room for the slash only, the slash is all that comes of a name. -/
theorem slash_left_over : ¬∀ cwd path, NormalPath cwd → cwd.length ≤ 255 → ResolvedWell cwd path := by
  intro h
  have hnormal : NormalPath (dirPath fullDirectory) := ⟨fullDirectory, by decide, rfl⟩
  have hwell := h (dirPath fullDirectory) (str "b") hnormal (by decide +kernel)
  exact absurd hwell.1.components.1 (by decide +kernel)

end LiteBSD
