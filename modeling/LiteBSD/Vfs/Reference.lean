/-
# `LiteBSD.Vfs.Reference` — what a path leads to, and where the buffer gets in the way

`refResolve` says what resolution is for: the components of a path, one after
the other, on top of those of the directory.  There is no bound in it.

  * Where no component is longer than 63 bytes and no result on the way is
    longer than 255, `vfs_resolve_path` is `refResolve`
    (`resolve_eq_reference`).
  * A name in a directory is the child of that name as long as it has 63 bytes
    or fewer (`name_kept_iff`): a longer one is taken for several names.
-/
import LiteBSD.Vfs.Components
import Mathlib.Data.List.Infix
import Mathlib.Data.List.TakeDrop

namespace LiteBSD

/-! ## The reference -/

def refStep (names : List CStr) (comp : CStr) : List CStr :=
  if comp = [dot] then names else if comp = [dot, dot] then names.dropLast else names ++ [comp]

/-- Where a path starts. -/
def refStart (cwd path : CStr) : List CStr := if path.head? = some slash then [] else components cwd

/-- The names after these components of the path. -/
def refNames (cwd path : CStr) (comps : List CStr) : List CStr := comps.foldl refStep (refStart cwd path)

def refResolve (cwd path : CStr) : CStr := dirPath (refNames cwd path (components path))

section Reference

variable {cwd path : CStr}

/-- A name with room for all of its bytes. -/
theorem NameStack.push_fits {names : List CStr} {comp : CStr} (hroom : (dirPath (names ++ [comp])).length ≤ 255)
    (hne : comp ≠ []) : NameStack.push ⟨names, false⟩ comp = ⟨names ++ [comp], false⟩ := by
  have hpos := List.length_pos_iff.mpr hne
  rw [NameStack.dirPath_snoc, List.length_append, List.length_cons] at hroom
  unfold NameStack.push
  dsimp only
  rw [if_neg Bool.false_ne_true, if_pos (by omega), List.take_of_length_le (by omega)]

/-- Within the bounds, the walk does what the reference does. -/
theorem walk_eq_reference {names comps : List CStr} (hcomps : ∀ comp ∈ comps, comp ≠ [])
    (hroom : ∀ pre, pre <+: comps → (dirPath (pre.foldl refStep names)).length ≤ 255) :
    comps.foldl NameStack.step ⟨names, false⟩ = ⟨comps.foldl refStep names, false⟩ := by
  induction comps generalizing names with
  | nil => rfl
  | cons comp comps ih =>
      have hstep : NameStack.step ⟨names, false⟩ comp = ⟨refStep names comp, false⟩ := by
        have hone := hroom [comp] (List.prefix_append [comp] comps)
        rw [List.foldl_cons, List.foldl_nil] at hone
        unfold NameStack.step refStep at *
        split
        · rfl
        split
        · rfl
        · rename_i hdot hdots
          rw [if_neg hdot, if_neg hdots] at hone
          exact NameStack.push_fits hone (hcomps comp List.mem_cons_self)
      rw [List.foldl_cons, List.foldl_cons, hstep]
      refine ih (fun c hc => hcomps c (List.mem_cons_of_mem _ hc)) fun pre hpre => ?_
      have hlong := hroom (comp :: pre) (List.cons_prefix_cons.mpr ⟨rfl, hpre⟩)
      rwa [List.foldl_cons] at hlong

theorem components_ne_nil {comp : CStr} (h : comp ∈ components path) : comp ≠ [] := by
  have hfilter := (List.mem_filter.mp h).2
  simpa using hfilter

end Reference

/-- With a directory of at most 254 bytes, components of at most 63 and no
result of more than 255 on the way, the resolution is the reference. -/
theorem resolve_eq_reference {cwd path : CStr} (hcwd : NormalPath cwd) (hlen : cwd.length ≤ 254)
    (hshort : ∀ comp ∈ components path, comp.length ≤ 63)
    (hroom : ∀ pre, pre <+: components path → (dirPath (refNames cwd path pre)).length ≤ 255) :
    vfsResolvePath cwd path = refResolve cwd path := by
  obtain ⟨heq, hnames⟩ := hcwd.components
  by_cases hnil : path = []
  · subst hnil
    have hhead := hcwd.head
    have hne : cwd ≠ [] := by
      rintro rfl
      cases hhead
    unfold vfsResolvePath
    rw [if_pos rfl, if_neg hne]
    exact (List.take_of_length_le (Nat.le_succ_of_le hlen)).trans heq
  · have hstart : startStack cwd path = ⟨refStart cwd path, false⟩ := by
      unfold startStack refStart
      split
      · rfl
      · have htake : cwd.take (pathMax - 2) = cwd := List.take_of_length_le hlen
        rw [htake, heq, stackOf_dirPath (IsName.parts hnames), ← heq]
    have hend : endStack cwd path = ⟨refNames cwd path (components path), false⟩ := by
      unfold endStack
      rw [pathNames_eq hshort, hstart]
      exact walk_eq_reference (fun c hc => components_ne_nil hc) hroom
    rw [resolve_eq_text hcwd (Nat.le_succ_of_le hlen) hnil, hend]
    exact List.append_nil _

/-- From `/home`, with a step back, slashes of all kinds and a dot. -/
theorem resolve_from_home :
    vfsResolvePath (str "/home") (str "..//tmp/./x/") = refResolve (str "/home") (str "..//tmp/./x/") :=
  resolve_eq_reference ⟨[str "home"], by decide, rfl⟩ (by decide) (by decide) (by
    intro pre hpre
    have hmem := (List.mem_inits _ _).mpr hpre
    have hall : ∀ pre ∈ (components (str "..//tmp/./x/")).inits,
        (dirPath (refNames (str "/home") (str "..//tmp/./x/") pre)).length ≤ 255 := by decide
    exact hall pre hmem)

/-! ## Names in a directory -/

section Names

variable {cwd dir name path : CStr}

/-- A name put on the stack has at most 63 bytes. -/
theorem short_above {st : NameStack} {comps : List CStr} {k : Nat} (hcomps : ∀ comp ∈ comps, comp.length ≤ componentMax)
    (h : ∀ n ∈ st.names.drop k, n.length ≤ componentMax) :
    ∀ n ∈ (comps.foldl NameStack.step st).names.drop k, n.length ≤ componentMax := by
  induction comps generalizing st with
  | nil => exact h
  | cons comp comps ih =>
      have hcomp := hcomps comp List.mem_cons_self
      have hsnoc : ∀ room, ∀ n ∈ (st.names ++ [comp.take room]).drop k, n.length ≤ componentMax := by
        intro room n hn
        rw [List.drop_append] at hn
        rcases List.mem_append.mp hn with hold | hnew
        · exact h n hold
        · rw [List.mem_singleton.mp (List.mem_of_mem_drop hnew)]
          exact Nat.le_trans (List.length_take_le' _ _) hcomp
      refine ih (fun c hc => hcomps c (List.mem_cons_of_mem _ hc)) ?_
      unfold NameStack.step NameStack.push
      dsimp only
      split
      · exact h
      split
      · intro n hn
        rw [← List.dropLast_drop_eq_drop_dropLast] at hn
        exact h n (List.mem_of_mem_dropLast hn)
      split
      · split
        · exact hsnoc _
        · exact h
      split
      · exact hsnoc _
      split
      · exact h
      · exact h

theorem joinName_eq {names : List CStr} (hn : ∀ name ∈ names, IsName name) :
    joinName (dirPath names) name = dirPath (names ++ [name]) := by
  rw [NameStack.dirPath_snoc]
  cases names with
  | nil => rfl
  | cons n names =>
      have hroot : dirPath (n :: names) ≠ [slash] := by
        obtain ⟨b, s, rfl⟩ := List.exists_cons_of_ne_nil (hn n List.mem_cons_self).2.1
        exact nofun
      rw [joinName, if_neg hroot, dirPath, if_neg (List.cons_ne_nil _ _)]

/-- The walk from a directory. -/
theorem startStack_dir {names : List CStr} (hn : ∀ name ∈ names, IsName name) (hlen : (dirPath names).length ≤ 254)
    (hhead : path.head? ≠ some slash) : startStack (dirPath names) path = ⟨names, false⟩ := by
  have htake : (dirPath names).take (pathMax - 2) = dirPath names := List.take_of_length_le hlen
  unfold startStack
  rw [if_neg hhead, htake, stackOf_dirPath (IsName.parts hn)]

end Names

/-- A name is one name for the walk if it has at most 63 bytes, and only then. -/
theorem name_kept_iff {dir name : CStr} (hdir : NormalPath dir) (hname : IsName name)
    (hlen : (joinName dir name).length ≤ 255) : vfsResolvePath dir name = joinName dir name ↔ name.length ≤ 63 := by
  obtain ⟨names, hn, rfl⟩ := hdir
  have hdir : NormalPath (dirPath names) := ⟨names, hn, rfl⟩
  rw [joinName_eq hn] at hlen ⊢
  have hpos := List.length_pos_iff.mpr hname.2.1
  have hshort : (dirPath names).length ≤ 254 := by
    have hsum := hlen
    rw [NameStack.dirPath_snoc, List.length_append, List.length_cons] at hsum
    rw [dirPath]
    split
    · decide
    · omega
  have hhead : name.head? ≠ some slash := fun he => hname.1 (List.mem_of_head? he)
  have hall : ∀ n ∈ names ++ [name], IsName n := by
    intro n hmem
    rcases List.mem_append.mp hmem with hold | hnew
    · exact hn n hold
    · rw [List.mem_singleton.mp hnew]
      exact hname
  have hstart := startStack_dir hn hshort hhead
  have hle := Nat.le_succ_of_le hshort
  rw [resolve_eq_text hdir hle hname.2.1]
  constructor
  · intro heq
    -- the names of the result are those of the joined path
    have hnames : (endStack (dirPath names) name).names = names ++ [name] := by
      rw [← (endStack_fits hdir hle name).components, heq, dirPath,
        if_neg (List.append_ne_nil_of_right_ne_nil _ (List.cons_ne_nil _ _)), components_pathOf (IsName.parts hall)]
    have habove := @short_above (startStack (dirPath names) name) (pathNames name) names.length
      (fun c hc => (mem_namesIn hc).2.2) (by rw [hstart, List.drop_length]; exact List.forall_mem_nil _) name
    rw [← endStack, hnames, List.drop_left] at habove
    exact habove (List.mem_singleton_self _)
  · intro h63
    have hcomps : pathNames name = [name] := by
      rw [pathNames_eq, components_name hname.2.1 hname.1]
      rw [components_name hname.2.1 hname.1]
      intro c hc
      rw [List.mem_singleton.mp hc]
      exact h63
    have hend : endStack (dirPath names) name = ⟨names ++ [name], false⟩ := by
      rw [endStack, hcomps, hstart, List.foldl_cons, List.foldl_nil, NameStack.step, if_neg hname.2.2.1,
        if_neg hname.2.2.2]
      exact NameStack.push_fits hlen hname.2.1
    rw [hend]
    exact List.append_nil _

theorem name_of_home : vfsResolvePath (str "/home") (str "..a") = joinName (str "/home") (str "..a") :=
  (name_kept_iff ⟨[str "home"], by decide, rfl⟩ (by decide) (by decide)).mpr (by decide)

/-- 63 bytes and `..` behind them lead back to the directory. -/
theorem name_split : ¬∀ dir name, NormalPath dir → IsName name → (joinName dir name).length ≤ 255 →
    vfsResolvePath dir name = joinName dir name := by
  intro h
  have hsplit := h [slash] (longName 0 ++ [dot, dot]) ⟨[], List.forall_mem_nil _, rfl⟩ (by decide) (by decide)
  exact absurd hsplit (by decide)

end LiteBSD
