/-
# `LiteBSD.Vfs.Components` — the buffer of `vfs_resolve_path` as a stack of names

The walk writes into a buffer of 255 bytes.  Seen from outside, the buffer is
a stack of names with a byte bound (`NameStack`):

    a name       is put on the stack, as far as there is room for its bytes;
                 with room for the slash alone, the slash is all that is left
    `..`         takes the name on top away, and such a slash with it
    `.`          nothing

`resolve_eq_text` says that this is what the walk computes, from every
normalised directory and for every path.  The names it takes from a path are
its components, those longer than 63 bytes in pieces (`pathNames`).
-/
import LiteBSD.Vfs.Listing

namespace LiteBSD

/-! ## Components of a path -/

/-- What is between the slashes. -/
def components (path : CStr) : List CStr := (path.splitOn slash).filter (· ≠ [])

/-- The names the walk takes from a path. -/
def namesIn : Nat → CStr → List CStr
  | 0, _ => []
  | fuel + 1, path =>
      let path := path.dropWhile (· = slash)
      if path = [] then [] else firstComp path :: namesIn fuel (path.drop (firstComp path).length)

def pathNames (path : CStr) : List CStr := namesIn path.length path

section Components

variable {path name : CStr} {names : List CStr}

theorem components_nil : components [] = [] := rfl

theorem components_append (p q : CStr) : components (p ++ slash :: q) = components p ++ components q := by
  unfold components
  rw [List.splitOn_append_cons_self, List.filter_append]

theorem components_slash (p : CStr) : components (slash :: p) = components p :=
  components_append [] p

theorem components_name (hne : name ≠ []) (hname : slash ∉ name) : components name = [name] := by
  unfold components
  rw [List.splitOn_eq_singleton hname, List.filter_cons_of_pos (by simpa using hne), List.filter_nil]

theorem components_pathOf (hn : ∀ name ∈ names, name ≠ [] ∧ slash ∉ name) : components (pathOf names) = names := by
  induction names with
  | nil => rfl
  | cons name names ih =>
      have hname := hn name List.mem_cons_self
      have hrest := ih fun c hc => hn c (List.mem_cons_of_mem _ hc)
      rw [pathOf, components_slash]
      cases names with
      | nil => rw [pathOf, List.append_nil, components_name hname.1 hname.2]
      | cons next names =>
          rw [pathOf] at hrest ⊢
          rw [components_append, components_name hname.1 hname.2, ← components_slash, hrest, List.singleton_append]

theorem components_dropWhile : components (path.dropWhile (· = slash)) = components path := by
  induction path with
  | nil => rfl
  | cons b path ih =>
      by_cases hb : b = slash
      · subst hb
        rw [List.dropWhile_cons_of_pos (by simp), ih, components_slash]
      · rw [List.dropWhile_cons_of_neg (by simpa using hb)]

/-- A path up to its first slash. -/
theorem first_split (path : CStr) :
    ∃ comp rest, path = comp ++ rest ∧ slash ∉ comp ∧ (rest = [] ∨ rest.head? = some slash) := by
  induction path with
  | nil => exact ⟨[], [], rfl, List.not_mem_nil, .inl rfl⟩
  | cons b path ih =>
      by_cases hb : b = slash
      · exact ⟨[], b :: path, rfl, List.not_mem_nil, .inr (congrArg some hb)⟩
      · obtain ⟨comp, rest, rfl, hcomp, hrest⟩ := ih
        exact ⟨b :: comp, rest, rfl, fun hs => (List.mem_cons.mp hs).elim (Ne.symm hb) hcomp, hrest⟩

/-- The first component comes off. -/
theorem components_first {comp rest : CStr} (hne : comp ≠ []) (hcomp : slash ∉ comp)
    (hrest : rest = [] ∨ rest.head? = some slash) : components (comp ++ rest) = comp :: components rest := by
  cases rest with
  | nil => rw [List.append_nil, components_name hne hcomp, components_nil]
  | cons b rest =>
      have hb : b = slash := by
        rcases hrest with h | h
        · cases h
        · cases h
          rfl
      rw [hb, components_append, components_name hne hcomp, components_slash, List.singleton_append]

/-- A component the walk can take in one piece comes off, too. -/
theorem firstComp_eq {comp rest : CStr} (hcomp : slash ∉ comp) (hshort : comp.length ≤ componentMax)
    (hrest : rest = [] ∨ rest.head? = some slash) : firstComp (comp ++ rest) = comp := by
  rw [firstComp, takeWhile_text hcomp hrest, List.take_of_length_le hshort]

/-- Where no component is too long, the walk takes the components. -/
theorem namesIn_eq {fuel : Nat} (hfuel : path.length ≤ fuel)
    (hshort : ∀ comp ∈ components path, comp.length ≤ componentMax) : namesIn fuel path = components path := by
  induction fuel generalizing path with
  | zero =>
      rw [List.length_eq_zero_iff.mp (Nat.le_zero.mp hfuel)]
      rfl
  | succ fuel ih =>
      rw [← components_dropWhile] at hshort ⊢
      unfold namesIn
      dsimp only
      by_cases hnil : path.dropWhile (· = slash) = []
      · rw [if_pos hnil, hnil, components_nil]
      · have hlt := round_lt hnil
        have hpos := firstComp_pos hnil
        rw [if_neg hnil]
        obtain ⟨comp, rest, hsplit, hcomp, hrest⟩ := first_split (path.dropWhile (· = slash))
        rw [hsplit] at hlt hpos hshort ⊢
        have hne : comp ≠ [] := by
          rintro rfl
          have hfirst : firstComp ([] ++ rest) = [] := firstComp_eq hcomp (Nat.zero_le _) hrest
          rw [hfirst] at hpos
          exact absurd hpos (Nat.lt_irrefl 0)
        rw [components_first hne hcomp hrest] at hshort ⊢
        have hfirst : firstComp (comp ++ rest) = comp := firstComp_eq hcomp (hshort comp List.mem_cons_self) hrest
        rw [hfirst, List.drop_left] at hlt ⊢
        rw [ih (by omega) fun c hc => hshort c (List.mem_cons_of_mem _ hc)]

theorem pathNames_eq (hshort : ∀ comp ∈ components path, comp.length ≤ componentMax) :
    pathNames path = components path :=
  namesIn_eq (Nat.le_refl _) hshort

/-- What the walk takes is short enough, not empty, and has no slash. -/
theorem mem_namesIn {fuel : Nat} (h : name ∈ namesIn fuel path) :
    name ≠ [] ∧ slash ∉ name ∧ name.length ≤ componentMax := by
  induction fuel generalizing path with
  | zero => cases h
  | succ fuel ih =>
      unfold namesIn at h
      dsimp only at h
      split at h
      · cases h
      · rename_i hnil
        rcases List.mem_cons.mp h with rfl | hrest
        · exact ⟨List.length_pos_iff.mp (firstComp_pos hnil), slash_notMem_firstComp _, List.length_take_le _ _⟩
        · exact ih hrest

/-- The walk is the walk over the names. -/
theorem resolveLoop_namesIn (fuel : Nat) (temp : CStr) :
    resolveLoop fuel temp path = (namesIn fuel path).foldl walkStep temp := by
  induction fuel generalizing temp path with
  | zero => rfl
  | succ fuel ih =>
      unfold namesIn
      dsimp only
      by_cases hnil : path.dropWhile (· = slash) = []
      · rw [resolveLoop_done _ _ hnil, if_pos hnil, List.foldl_nil]
      · rw [resolveLoop_step _ _ hnil, if_neg hnil, List.foldl_cons, ih]

end Components

/-! ## The stack -/

/-- The names in the buffer, from the root on, and whether a slash is left
over behind them. -/
structure NameStack where
  names : List CStr
  tail : Bool
deriving DecidableEq, Repr

namespace NameStack

/-- The bytes of the buffer. -/
def text (st : NameStack) : CStr := dirPath st.names ++ if st.tail then [slash] else []

/-- A name comes on top, cut to the room there is. -/
def push (st : NameStack) (comp : CStr) : NameStack :=
  let used := (pathOf st.names).length
  if st.tail then
    if used = 253 then ⟨st.names ++ [comp.take 1], false⟩ else st
  else if used ≤ 253 then ⟨st.names ++ [comp.take (254 - used)], false⟩
  else if used = 254 then ⟨st.names, true⟩
  else st

def step (st : NameStack) (comp : CStr) : NameStack :=
  if comp = [dot] then st
  else if comp = [dot, dot] then ⟨st.names.dropLast, false⟩
  else st.push comp

/-- The buffer holds the stack: 255 bytes at most, and a slash is left over
only near the end. -/
structure Fits (st : NameStack) : Prop where
  names : ∀ name ∈ st.names, name ≠ [] ∧ slash ∉ name
  tail : st.tail = true → (pathOf st.names).length = 253 ∨ (pathOf st.names).length = 254
  length : (pathOf st.names).length ≤ 255

/-- With no slash at its end. -/
theorem Fits.of_names {names : List CStr} (h : ∀ name ∈ names, name ≠ [] ∧ slash ∉ name)
    (hlen : (pathOf names).length ≤ 255) : Fits ⟨names, false⟩ :=
  ⟨h, fun ht => absurd ht Bool.false_ne_true, hlen⟩

section

variable {st : NameStack} {comp name : CStr} {names : List CStr}

theorem pathOf_eq_nil : pathOf names = [] ↔ names = [] := by
  cases names with
  | nil => exact ⟨fun _ => rfl, fun _ => rfl⟩
  | cons name names => exact ⟨nofun, nofun⟩

theorem pathOf_snoc (names : List CStr) (name : CStr) : pathOf (names ++ [name]) = pathOf names ++ slash :: name := by
  rw [pathOf_append, pathOf, pathOf, List.append_nil]

theorem dirPath_snoc (names : List CStr) (name : CStr) : dirPath (names ++ [name]) = pathOf names ++ slash :: name := by
  rw [dirPath, if_neg (List.append_ne_nil_of_right_ne_nil _ (List.cons_ne_nil _ _)), pathOf_snoc]

theorem dirPath_eq (names : List CStr) : dirPath names = if pathOf names = [] then [slash] else pathOf names :=
  if_congr pathOf_eq_nil.symm rfl rfl

/-- Behind a slash, the name follows at once. -/
theorem pushComponent_slash (p : CStr) :
    LiteBSD.pushComponent (p ++ [slash]) comp = p ++ [slash] ++ comp.take (255 - (p ++ [slash]).length) := by
  have hlast : (p ++ [slash])[(p ++ [slash]).length - 1]? = some slash := by
    rw [← List.getLast?_eq_getElem?, List.getLast?_concat]
  have hne : ¬((p ++ [slash]).length = 0 ∨ (p ++ [slash])[(p ++ [slash]).length - 1]? ≠ some slash) := by
    rw [hlast, List.length_append]
    exact fun h => h.elim (Nat.succ_ne_zero _) (absurd rfl)
  unfold LiteBSD.pushComponent
  rw [if_neg hne]
  rfl

/-- Behind a name, a slash comes first. -/
theorem pushComponent_room {p : CStr} (hlast : p[p.length - 1]? ≠ some slash) (hlen : p.length < 255) :
    LiteBSD.pushComponent p comp = p ++ slash :: comp.take (254 - p.length) := by
  have hlt : p.length < pathMax - 1 := hlen
  have hroom : pathMax - 1 - (p ++ [slash]).length = 254 - p.length := by
    rw [List.length_append, List.length_singleton]
    show 255 - (p.length + 1) = _
    omega
  unfold LiteBSD.pushComponent
  rw [if_pos (.inr hlast), if_pos hlt]
  dsimp only
  rw [hroom, List.append_assoc, List.singleton_append]

theorem Fits.pop (h : st.Fits) : Fits ⟨st.names.dropLast, false⟩ where
  names name hname := h.names name (List.mem_of_mem_dropLast hname)
  tail := nofun
  length := by
    have hlen := h.length
    rcases List.eq_nil_or_concat st.names with hnil | ⟨init, name, hsnoc⟩
    · rw [hnil]
      exact Nat.zero_le _
    · rw [List.concat_eq_append] at hsnoc
      rw [hsnoc, List.dropLast_concat]
      rw [hsnoc, pathOf_snoc, List.length_append] at hlen
      exact Nat.le_trans (Nat.le_add_right _ _) hlen

/-- `..` takes the top away. -/
theorem Fits.popComponent (h : st.Fits) : popComponent st.text = text ⟨st.names.dropLast, false⟩ := by
  rcases List.eq_nil_or_concat st.names with hnil | ⟨init, name, hsnoc⟩
  · have htail : st.tail = false := by
      cases hst : st.tail with
      | false => rfl
      | true =>
          have hused := h.tail hst
          rw [hnil] at hused
          exact absurd hused (by decide)
    unfold text
    rw [hnil, htail]
    rfl
  · rw [List.concat_eq_append] at hsnoc
    obtain ⟨hne, hname⟩ := h.names name (by rw [hsnoc]; exact List.mem_append_right _ (List.mem_singleton_self _))
    have htail : (if st.tail then [slash] else []) = [] ∨ (if st.tail then [slash] else []) = [slash] := by
      split
      · exact .inr rfl
      · exact .inl rfl
    unfold text
    rw [hsnoc, List.dropLast_concat, dirPath_snoc, popComponent_name hne hname htail, dirPath_eq]
    exact (List.append_nil _).symm

/-- A byte of room at least: a name is put on the stack, or what fits of it. -/
theorem Fits.snoc (h : st.Fits) {room : Nat} (hne : comp ≠ []) (hcomp : slash ∉ comp) (hpos : 0 < room)
    (hroom : (pathOf st.names).length + 1 + room ≤ 255) : Fits ⟨st.names ++ [comp.take room], false⟩ where
  names name hname := by
    rcases List.mem_append.mp hname with hold | hnew
    · exact h.names name hold
    · rw [List.mem_singleton.mp hnew, Ne, List.take_eq_nil_iff, not_or]
      exact ⟨⟨Nat.pos_iff_ne_zero.mp hpos, hne⟩, fun hs => hcomp (List.mem_of_mem_take hs)⟩
  tail := nofun
  length := by
    rw [pathOf_snoc, List.length_append, List.length_cons, List.length_take]
    omega

theorem Fits.push (h : st.Fits) (hne : comp ≠ []) (hcomp : slash ∉ comp) : (st.push comp).Fits := by
  unfold NameStack.push
  dsimp only
  split
  · split
    · exact h.snoc hne hcomp (by decide) (by omega)
    · exact h
  split
  · exact h.snoc hne hcomp (by omega) (by omega)
  split
  · exact ⟨h.names, fun _ => .inr ‹_›, h.length⟩
  · exact h

theorem Fits.step (h : st.Fits) (hne : comp ≠ []) (hcomp : slash ∉ comp) : (st.step comp).Fits := by
  unfold NameStack.step
  split
  · exact h
  split
  · exact h.pop
  · exact h.push hne hcomp

/-- Without a slash left over, a name ends the buffer. -/
theorem Fits.last (h : st.Fits) (hne : st.names ≠ []) : 
    (pathOf st.names)[(pathOf st.names).length - 1]? ≠ some slash := by
  rcases List.eq_nil_or_concat st.names with hnil | ⟨init, name, hsnoc⟩
  · exact absurd hnil hne
  · rw [List.concat_eq_append] at hsnoc
    obtain ⟨hname, hslash⟩ := h.names name (by rw [hsnoc]; exact List.mem_append_right _ (List.mem_singleton_self _))
    rw [hsnoc, pathOf_snoc, ← List.getLast?_eq_getElem?, List.getLast?_append_of_ne_nil _ (List.cons_ne_nil _ _),
      List.getLast?_cons_of_ne_nil hname]
    exact fun he => hslash (List.mem_of_getLast? he)

theorem Fits.pushComponent (h : st.Fits) : pushComponent st.text comp = (st.push comp).text := by
  have hle := h.length
  unfold NameStack.push
  dsimp only
  cases htail : st.tail with
  | true =>
      have hused := h.tail htail
      have hnil : st.names ≠ [] := fun hnil => by
        rw [hnil] at hused
        exact absurd hused (by decide)
      have htext : st.text = pathOf st.names ++ [slash] := by
        rw [text, htail, dirPath, if_neg hnil]
        rfl
      rw [htext, pushComponent_slash, if_pos rfl, List.length_append, List.length_singleton]
      rcases hused with hroom | hfull
      · rw [if_pos hroom, hroom, text, dirPath_snoc, List.append_assoc]
        exact (List.append_nil _).symm
      · rw [if_neg (by omega), hfull, htext]
        exact List.append_nil _
  | false =>
      have hplain : st.text = dirPath st.names := by
        rw [text, htail]
        exact List.append_nil _
      rw [hplain, if_neg Bool.false_ne_true]
      by_cases hnil : st.names = []
      · -- behind the slash of the root
        rw [hnil]
        show LiteBSD.pushComponent ([] ++ [slash]) comp = _
        rw [pushComponent_slash, if_pos (by decide), text, dirPath_snoc]
        exact (List.append_nil _).symm
      rw [dirPath, if_neg hnil]
      by_cases hroom : (pathOf st.names).length ≤ 253
      · rw [if_pos hroom, pushComponent_room (h.last hnil) (by omega), text, dirPath_snoc]
        exact (List.append_nil _).symm
      rw [if_neg hroom]
      by_cases hslash : (pathOf st.names).length = 254
      · rw [if_pos hslash, pushComponent_room (h.last hnil) (by omega), hslash, text, dirPath, if_neg hnil]
        rfl
      · rw [if_neg hslash, pushComponent_full (by omega), hplain, dirPath, if_neg hnil]

/-- A round of the walk. -/
theorem Fits.walkStep (h : st.Fits) : walkStep st.text comp = (st.step comp).text := by
  unfold LiteBSD.walkStep NameStack.step
  split
  · rfl
  split
  · exact h.popComponent
  · exact h.pushComponent

/-- The walk over names, from any stack that fits. -/
theorem Fits.walk (h : st.Fits) {comps : List CStr} (hcomps : ∀ comp ∈ comps, comp ≠ [] ∧ slash ∉ comp) :
    (comps.foldl NameStack.step st).Fits ∧
      comps.foldl LiteBSD.walkStep st.text = (comps.foldl NameStack.step st).text := by
  induction comps generalizing st with
  | nil => exact ⟨h, rfl⟩
  | cons comp comps ih =>
      obtain ⟨hne, hcomp⟩ := hcomps comp List.mem_cons_self
      rw [List.foldl_cons, List.foldl_cons, h.walkStep]
      exact ih (h.step hne hcomp) fun c hc => hcomps c (List.mem_cons_of_mem _ hc)

theorem Fits.text_length (h : st.Fits) : st.text.length ≤ 255 := by
  have hle := h.length
  have hroot : (dirPath st.names).length ≤ max 1 (pathOf st.names).length := by
    unfold dirPath
    split
    · exact Nat.le_max_left _ _
    · exact Nat.le_max_right _ _
  unfold text
  rw [List.length_append]
  cases htail : st.tail with
  | true =>
      have hused := h.tail htail
      rw [if_pos rfl, List.length_singleton]
      omega
  | false =>
      rw [if_neg Bool.false_ne_true, List.length_nil]
      omega

theorem text_ne_nil (st : NameStack) : st.text ≠ [] := by
  have hdir : dirPath st.names ≠ [] := by
    rw [dirPath_eq]
    split
    · exact List.cons_ne_nil _ _
    · assumption
  exact List.append_ne_nil_of_left_ne_nil hdir _

/-- The names can be read off the buffer. -/
theorem Fits.components (h : st.Fits) : components st.text = st.names := by
  have hdir : LiteBSD.components (dirPath st.names) = st.names := by
    by_cases hnil : st.names = []
    · rw [hnil]
      rfl
    · rw [dirPath, if_neg hnil, components_pathOf h.names]
  unfold text
  cases st.tail with
  | true => rw [if_pos rfl, components_append, hdir, components_nil, List.append_nil]
  | false => rw [if_neg Bool.false_ne_true, List.append_nil, hdir]

end

end NameStack

/-! ## The resolution -/

/-- A path in normal form: the root, or names behind slashes. -/
def NormalPath (path : CStr) : Prop := ∃ names, (∀ name ∈ names, IsName name) ∧ path = dirPath names

/-- Only the name on top can be a part of a name, and only with no room left. -/
structure NameStack.TopCut (st : NameStack) : Prop where
  below : ∀ name ∈ st.names.dropLast, IsName name
  room : (pathOf st.names).length ≤ 253 → ∀ name ∈ st.names, IsName name

/-- What is in a buffer, as a stack. -/
def stackOf (temp : CStr) : NameStack := ⟨components temp, temp ≠ [slash] ∧ temp.getLast? = some slash⟩

/-- The stack the walk over `path` starts from: at most 254 bytes of `cwd`
are taken over. -/
def startStack (cwd path : CStr) : NameStack :=
  if path.head? = some slash then ⟨[], false⟩ else stackOf (cwd.take (pathMax - 2))

/-- The stack it ends with. -/
def endStack (cwd path : CStr) : NameStack := (pathNames path).foldl NameStack.step (startStack cwd path)

section Resolution

variable {cwd path : CStr} {names : List CStr}

theorem IsName.parts (hn : ∀ name ∈ names, IsName name) : ∀ name ∈ names, name ≠ [] ∧ slash ∉ name :=
  fun name hname => ⟨(hn name hname).2.1, (hn name hname).1⟩

theorem NormalPath.components (h : NormalPath path) : path = dirPath (components path) ∧
    ∀ name ∈ LiteBSD.components path, IsName name := by
  obtain ⟨names, hn, rfl⟩ := h
  have heq : LiteBSD.components (dirPath names) = names := by
    by_cases hnil : names = []
    · rw [hnil]
      rfl
    · rw [dirPath, if_neg hnil, components_pathOf (IsName.parts hn)]
  rw [heq]
  exact ⟨rfl, hn⟩

theorem stackOf_dirPath (hn : ∀ name ∈ names, name ≠ [] ∧ slash ∉ name) : stackOf (dirPath names) = ⟨names, false⟩ := by
  rcases List.eq_nil_or_concat names with hnil | ⟨init, name, hsnoc⟩
  · rw [hnil]
    rfl
  · rw [List.concat_eq_append] at hsnoc
    subst hsnoc
    obtain ⟨hne, hname⟩ := hn name (List.mem_append_right _ (List.mem_singleton_self _))
    have hlast : (dirPath (init ++ [name])).getLast? ≠ some slash := by
      rw [NameStack.dirPath_snoc, List.getLast?_append_of_ne_nil _ (List.cons_ne_nil _ _),
        List.getLast?_cons_of_ne_nil hne]
      exact fun he => hname (List.mem_of_getLast? he)
    have hcomps : components (dirPath (init ++ [name])) = init ++ [name] := by
      rw [NameStack.dirPath_snoc, ← NameStack.pathOf_snoc, components_pathOf hn]
    unfold stackOf
    rw [hcomps, decide_eq_false fun h => hlast h.2]

theorem stackOf_slash (hn : ∀ name ∈ names, name ≠ [] ∧ slash ∉ name) (hne : names ≠ []) :
    stackOf (pathOf names ++ [slash]) = ⟨names, true⟩ := by
  have hlast : (pathOf names ++ [slash]).getLast? = some slash := List.getLast?_concat
  have hroot : pathOf names ++ [slash] ≠ [slash] := by
    intro he
    exact hne (NameStack.pathOf_eq_nil.mp (List.append_left_eq_self.mp he))
  unfold stackOf
  rw [components_append, components_pathOf hn, components_nil, List.append_nil, decide_eq_true ⟨hroot, hlast⟩]

/-- A slash that is left over, as the stack sees it. -/
theorem stackOf_text {st : NameStack} (h : st.Fits) : stackOf st.text = st := by
  obtain ⟨names, tail⟩ := st
  cases tail with
  | false =>
      rw [NameStack.text, if_neg Bool.false_ne_true, List.append_nil]
      exact stackOf_dirPath h.names
  | true =>
      have hne : names ≠ [] := by
        rintro rfl
        rcases h.tail rfl with hlen | hlen <;> cases hlen
      rw [NameStack.text, if_pos rfl, dirPath, if_neg hne]
      exact stackOf_slash h.names hne

/-- What the walk takes over of a full buffer: the last byte goes, and with it
the slash that is left over, a byte of the name on top, or all of that name. -/
theorem NameStack.Fits.cut {st : NameStack} (h : st.Fits) (ht : st.TopCut) :
    (stackOf (st.text.take 254)).Fits ∧ (stackOf (st.text.take 254)).text = st.text.take 254 ∧
      (stackOf (st.text.take 254)).TopCut ∧
      ∀ name ∈ (stackOf (st.text.take 254)).names, ∃ whole ∈ st.names, name.length ≤ whole.length := by
  have hlen := h.text_length
  by_cases hshort : st.text.length ≤ 254
  · rw [List.take_of_length_le hshort, stackOf_text h]
    exact ⟨h, rfl, ht, fun name hmem => ⟨name, hmem, Nat.le_refl _⟩⟩
  have hfull : st.text.length = 255 := Nat.le_antisymm hlen (Nat.lt_of_not_le hshort)
  obtain ⟨names, tail⟩ := st
  rcases List.eq_nil_or_concat names with hnil | ⟨init, name, hsnoc⟩
  · subst hnil
    cases tail with
    | false => cases hfull
    | true => cases hfull
  rw [List.concat_eq_append] at hsnoc
  subst hsnoc
  have hbelow : ∀ n ∈ init, IsName n := by
    have hb := ht.below
    rwa [List.dropLast_concat] at hb
  have hinit : ∀ n ∈ init, n ≠ [] ∧ slash ∉ n := fun n hmem => h.names n (List.mem_append_left _ hmem)
  obtain ⟨hne, hname⟩ := h.names name (List.mem_append_right _ (List.mem_singleton_self _))
  have hdir := NameStack.dirPath_snoc init name
  cases tail with
  | true =>
      have htext : NameStack.text ⟨init ++ [name], true⟩ = dirPath (init ++ [name]) ++ [slash] := rfl
      rw [htext, List.length_append, List.length_singleton] at hfull
      have hused : (dirPath (init ++ [name])).length = 254 := Nat.succ.inj hfull
      have hcut : (dirPath (init ++ [name]) ++ [slash]).take 254 = dirPath (init ++ [name]) := by
        rw [← hused, List.take_left]
      rw [htext, hcut, stackOf_dirPath h.names]
      have hpath : (pathOf (init ++ [name])).length = 254 := by
        rw [NameStack.pathOf_snoc, ← hdir, hused]
      refine ⟨.of_names h.names h.length, List.append_nil _, ⟨ht.below, fun hroom => ?_⟩,
        fun n hmem => ⟨n, hmem, Nat.le_refl _⟩⟩
      rw [hpath] at hroom
      exact absurd hroom (by decide)
  | false =>
      have htext : NameStack.text ⟨init ++ [name], false⟩ = pathOf init ++ slash :: name := by
        rw [NameStack.text, if_neg Bool.false_ne_true, List.append_nil, hdir]
      have hcut : (pathOf init ++ slash :: name).take 254 = pathOf init ++ slash :: name.dropLast := by
        rw [htext] at hfull
        have hbyte : 254 = (pathOf init ++ slash :: name).length - 1 := by rw [hfull]
        rw [hbyte, ← List.dropLast_eq_take, List.dropLast_append_of_ne_nil (List.cons_ne_nil _ _),
          List.dropLast_cons_of_ne_nil hne]
      rw [htext, List.length_append, List.length_cons] at hfull
      rw [htext, hcut]
      by_cases hone : name.dropLast = []
      · have hlast := congrArg List.length hone
        rw [List.length_dropLast, List.length_nil] at hlast
        have hinitne : init ≠ [] := by
          rintro rfl
          rw [pathOf, List.length_nil] at hfull
          omega
        have hused : (pathOf init).length = 253 := by
          have hpos := List.length_pos_iff.mpr hne
          omega
        rw [hone, stackOf_slash hinit hinitne]
        refine ⟨⟨hinit, fun _ => .inl hused, Nat.le_trans (Nat.le_of_eq hused) (by decide)⟩, ?_,
          ⟨fun n hmem => hbelow n (List.mem_of_mem_dropLast hmem), fun _ => hbelow⟩,
          fun n hmem => ⟨n, List.mem_append_left _ hmem, Nat.le_refl _⟩⟩
        rw [NameStack.text, dirPath, if_neg hinitne]
        rfl
      · have hparts' : ∀ n ∈ init ++ [name.dropLast], n ≠ [] ∧ slash ∉ n := by
          intro n hmem
          rcases List.mem_append.mp hmem with hold | hnew
          · exact hinit n hold
          · rw [List.mem_singleton.mp hnew]
            exact ⟨hone, fun hs => hname (List.mem_of_mem_dropLast hs)⟩
        have hused : (pathOf (init ++ [name.dropLast])).length = 254 := by
          have hpos := List.length_pos_iff.mpr hne
          rw [NameStack.pathOf_snoc, List.length_append, List.length_cons, List.length_dropLast]
          omega
        rw [← NameStack.dirPath_snoc, stackOf_dirPath hparts']
        refine ⟨.of_names hparts' (Nat.le_trans (Nat.le_of_eq hused) (by decide)), List.append_nil _, ⟨?_, ?_⟩, ?_⟩
        · rw [List.dropLast_concat]
          exact hbelow
        · exact fun hroom => absurd (hused ▸ hroom) (by decide)
        · intro n hmem
          rcases List.mem_append.mp hmem with hold | hnew
          · exact ⟨n, List.mem_append_left _ hold, Nat.le_refl _⟩
          · refine ⟨name, List.mem_append_right _ (List.mem_singleton_self _), ?_⟩
            rw [List.mem_singleton.mp hnew, List.length_dropLast]
            exact Nat.sub_le _ _

/-- The stack of a buffer that holds a path in normal form, without its last
byte where there are 255: a name is shorter then, or a slash is left over. -/
theorem NormalPath.start (h : NormalPath cwd) (hlen : cwd.length ≤ 255) :
    (stackOf (cwd.take 254)).Fits ∧ (stackOf (cwd.take 254)).text = cwd.take 254 ∧ (stackOf (cwd.take 254)).TopCut := by
  obtain ⟨names, hn, rfl⟩ := h
  have hused : (pathOf names).length ≤ 255 := by
    by_cases hnil : names = []
    · rw [hnil]
      exact Nat.zero_le _
    · rwa [dirPath, if_neg hnil] at hlen
  have hfits : NameStack.Fits ⟨names, false⟩ := .of_names (IsName.parts hn) hused
  have htop : NameStack.TopCut ⟨names, false⟩ := ⟨fun n hmem => hn n (List.mem_of_mem_dropLast hmem), fun _ => hn⟩
  have hcut := hfits.cut htop
  have htext : NameStack.text ⟨names, false⟩ = dirPath names := List.append_nil _
  rw [htext] at hcut
  exact ⟨hcut.1, hcut.2.1, hcut.2.2.1⟩

theorem NormalPath.head (h : NormalPath path) : path.head? = some slash := by
  obtain ⟨names, _, rfl⟩ := h
  cases names with
  | nil => rfl
  | cons name names => rfl

theorem resolveLoop_slash (fuel : Nat) (temp rest : CStr) :
    resolveLoop (fuel + 1) temp (slash :: rest) = resolveLoop (fuel + 1) temp rest := by
  rw [resolveLoop, resolveLoop, List.dropWhile_cons_of_pos (by simp)]

theorem NameStack.TopCut.step {st : NameStack} {comp : CStr} (h : st.TopCut) (hne : comp ≠ []) (hcomp : slash ∉ comp) :
    (st.step comp).TopCut := by
  unfold NameStack.step
  split
  · exact h
  split
  · exact ⟨fun n hmem => h.below n (List.mem_of_mem_dropLast hmem), fun _ => h.below⟩
  rename_i hdot hdots
  have hname : IsName comp := ⟨hcomp, hne, hdot, hdots⟩
  -- a name is put on names, whole or with nothing left of the room
  have hsnoc : ∀ room, (pathOf st.names).length ≤ 253 → (pathOf st.names).length + 1 + room ≥ 254 →
      NameStack.TopCut ⟨st.names ++ [comp.take room], false⟩ := by
    intro room hused hroom
    refine ⟨?_, fun hfit n hmem => ?_⟩
    · rw [List.dropLast_concat]
      exact h.room hused
    · rw [NameStack.pathOf_snoc, List.length_append, List.length_cons, List.length_take] at hfit
      rcases List.mem_append.mp hmem with hold | hnew
      · exact h.room hused n hold
      · rw [List.mem_singleton.mp hnew, List.take_of_length_le (by omega)]
        exact hname
  unfold NameStack.push
  dsimp only
  split
  · split
    · exact hsnoc 1 (by omega) (by omega)
    · exact h
  split
  · exact hsnoc _ ‹_› (by omega)
  split
  · exact ⟨h.below, h.room⟩
  · exact h

theorem mem_pathNames {name : CStr} (h : name ∈ pathNames path) : name ≠ [] ∧ slash ∉ name :=
  ⟨(mem_namesIn h).1, (mem_namesIn h).2.1⟩

/-- What holds of the stacks a walk can start from holds of the one it starts from. -/
theorem startStack_of {P : NameStack → Prop} (hroot : P ⟨[], false⟩) (hcut : P (stackOf (cwd.take 254)))
    (path : CStr) : P (startStack cwd path) := by
  unfold startStack
  split
  · exact hroot
  · exact hcut

/-- What every step keeps, the walk keeps. -/
theorem endStack_of {P : NameStack → Prop} (hstart : P (startStack cwd path))
    (hstep : ∀ st comp, P st → comp ≠ [] → slash ∉ comp → comp.length ≤ componentMax → P (st.step comp)) :
    P (endStack cwd path) := by
  have hwalk : ∀ comps : List CStr, (∀ comp ∈ comps, comp ≠ [] ∧ slash ∉ comp ∧ comp.length ≤ componentMax) →
      ∀ st, P st → P (comps.foldl NameStack.step st) := by
    intro comps
    induction comps with
    | nil => exact fun _ _ hst => hst
    | cons comp comps ih =>
        intro hcomps st hst
        obtain ⟨hne, hcomp, hshort⟩ := hcomps comp List.mem_cons_self
        exact ih (fun c hc => hcomps c (List.mem_cons_of_mem _ hc)) _ (hstep st comp hst hne hcomp hshort)
  exact hwalk _ (fun _ hmem => mem_namesIn hmem) _ hstart

/-- What `vfs_resolve_path` writes is the stack the walk ends with, from every
directory that the stack it starts with shows as it is. -/
theorem resolve_text (hhead : cwd.head? = some slash) (hfits : (stackOf (cwd.take 254)).Fits)
    (htext : (stackOf (cwd.take 254)).text = cwd.take 254) (hne : path ≠ []) :
    vfsResolvePath cwd path = (endStack cwd path).text := by
  have hfirst : (startStack cwd path).Fits := startStack_of (.of_names (List.forall_mem_nil _) (Nat.zero_le _)) hfits path
  have hlast : (endStack cwd path).Fits := endStack_of hfirst fun _ _ hst hne hcomp _ => hst.step hne hcomp
  have hstart : resolveLoop path.length (resolveStart cwd path).1 (resolveStart cwd path).2 =
      resolveLoop path.length (startStack cwd path).text path := by
    obtain ⟨b, rest, rfl⟩ := List.exists_cons_of_ne_nil hne
    by_cases hb : b = slash
    · subst hb
      have habs : startStack cwd (slash :: rest) = ⟨[], false⟩ := if_pos rfl
      rw [habs, List.length_cons, resolveLoop_slash]
      rfl
    · have hstart : resolveStart cwd (b :: rest) = (cwd.take (pathMax - 2), b :: rest) :=
        (if_neg hb).trans (if_neg (not_not.mpr hhead))
      have hrel : startStack cwd (b :: rest) = stackOf (cwd.take 254) := if_neg fun he => hb (Option.some.inj he)
      rw [hstart, hrel, htext]
      rfl
  have hwalk : (pathNames path).foldl walkStep (startStack cwd path).text = (endStack cwd path).text :=
    (hfirst.walk fun _ hmem => mem_pathNames hmem).2
  unfold vfsResolvePath
  rw [if_neg hne]
  dsimp only
  rw [hstart, resolveLoop_namesIn, ← pathNames, hwalk, if_neg (NameStack.text_ne_nil _)]
  exact List.take_of_length_le hlast.text_length

theorem startStack_fits (h : NormalPath cwd) (hlen : cwd.length ≤ 255) (path : CStr) : (startStack cwd path).Fits :=
  startStack_of (.of_names (List.forall_mem_nil _) (Nat.zero_le _)) (h.start hlen).1 path

theorem endStack_fits (h : NormalPath cwd) (hlen : cwd.length ≤ 255) (path : CStr) : (endStack cwd path).Fits :=
  endStack_of (startStack_fits h hlen path) fun _ _ hst hne hcomp _ => hst.step hne hcomp

theorem endStack_topCut (h : NormalPath cwd) (hlen : cwd.length ≤ 255) (path : CStr) : (endStack cwd path).TopCut := by
  have hstart : (startStack cwd path).TopCut :=
    startStack_of ⟨List.forall_mem_nil _, fun _ => List.forall_mem_nil _⟩ (h.start hlen).2.2 path
  exact endStack_of hstart fun _ _ hst hne hcomp _ => hst.step hne hcomp

/-- What `vfs_resolve_path` writes is the stack the walk ends with. -/
theorem resolve_eq_text (h : NormalPath cwd) (hlen : cwd.length ≤ 255) (hne : path ≠ []) :
    vfsResolvePath cwd path = (endStack cwd path).text :=
  resolve_text h.head (h.start hlen).1 (h.start hlen).2.1 hne

end Resolution

end LiteBSD
