/-
# `LiteBSD.Vfs.Walk` — the walk of `vfs_resolve_path` over any path

`resolveLoop` takes one component after the other off a path.  What it leaves
has a shape of its own (`Walked`): names behind slashes, at most 255 bytes,
and a slash at the end only where the last byte of the buffer is one.  So a
path `dir/name` is walked from where the walk over `dir` ends
(`resolve_joined`).
-/
import LiteBSD.Vfs.Resolve
import Mathlib.Data.List.TakeWhile

namespace LiteBSD

/-! ## Component by component -/

/-- What a component does to the path. -/
def walkStep (temp comp : CStr) : CStr :=
  if comp = [dot] then temp else if comp = [dot, dot] then popComponent temp
  else pushComponent temp comp

/-- The first component of a path. -/
def firstComp (path : CStr) : CStr := (path.takeWhile (· ≠ slash)).take componentMax

section Rounds

variable {path rest temp : CStr}

theorem resolveLoop_step (fuel : Nat) (temp : CStr) (hne : path.dropWhile (· = slash) ≠ []) :
    resolveLoop (fuel + 1) temp path =
      resolveLoop fuel (walkStep temp (firstComp (path.dropWhile (· = slash))))
        ((path.dropWhile (· = slash)).drop (firstComp (path.dropWhile (· = slash))).length) := by
  rw [resolveLoop]
  dsimp only
  rw [if_neg hne]
  show (if firstComp _ = [dot] then _ else if firstComp _ = [dot, dot] then _ else _) = _
  unfold walkStep
  split
  · rfl
  split
  · rfl
  · rfl

theorem resolveLoop_done (fuel : Nat) (temp : CStr) (hnil : path.dropWhile (· = slash) = []) :
    resolveLoop fuel temp path = temp := by
  cases fuel with
  | zero => rfl
  | succ fuel =>
      rw [resolveLoop]
      dsimp only
      rw [if_pos hnil]

/-- A component is not empty, and no longer than what it is taken from. -/
theorem firstComp_pos (hne : path.dropWhile (· = slash) ≠ []) :
    0 < (firstComp (path.dropWhile (· = slash))).length := by
  have hhead := List.dropWhile_get_zero_not (· = slash) path (List.length_pos_iff.mpr hne)
  obtain ⟨b, s, hs⟩ := List.exists_cons_of_ne_nil hne
  simp only [hs, List.get_eq_getElem, List.getElem_cons_zero] at hhead
  rw [hs, firstComp, List.takeWhile_cons_of_pos (by simpa using hhead), componentMax, List.take_succ_cons]
  exact Nat.succ_pos _

theorem firstComp_le (path : CStr) : (firstComp path).length ≤ path.length :=
  Nat.le_trans (List.length_take_le' _ _) (List.takeWhile_prefix _).length_le

theorem round_lt (hne : path.dropWhile (· = slash) ≠ []) :
    ((path.dropWhile (· = slash)).drop (firstComp (path.dropWhile (· = slash))).length).length <
      path.length := by
  have hpos := firstComp_pos hne
  have hle := (List.dropWhile_suffix (· = slash) (l := path)).length_le
  have hlt := List.length_pos_iff.mpr hne
  rw [List.length_drop]
  omega

/-- More fuel than bytes makes no difference. -/
theorem resolveLoop_fuel {fuel fuel' : Nat} (h : path.length ≤ fuel) (h' : path.length ≤ fuel') :
    resolveLoop fuel temp path = resolveLoop fuel' temp path := by
  induction fuel generalizing fuel' temp path with
  | zero =>
      obtain rfl := List.length_eq_zero_iff.mp (Nat.le_zero.mp h)
      rw [resolveLoop_nil, resolveLoop_nil]
  | succ fuel ih =>
      by_cases hnil : path.dropWhile (· = slash) = []
      · rw [resolveLoop_done _ _ hnil, resolveLoop_done _ _ hnil]
      · have hlt := round_lt hnil
        obtain ⟨f, rfl⟩ : ∃ f, fuel' = f + 1 := Nat.exists_eq_succ_of_ne_zero (by omega)
        rw [resolveLoop_step _ _ hnil, resolveLoop_step _ _ hnil]
        exact ih (by omega) (by omega)

/-- What is before a slash is walked first. -/
theorem resolveLoop_append {p : CStr} {fuel : Nat} (hf : (p ++ slash :: rest).length ≤ fuel) :
    resolveLoop fuel temp (p ++ slash :: rest) =
      resolveLoop fuel (resolveLoop p.length temp p) (slash :: rest) := by
  induction fuel generalizing temp p with
  | zero =>
      rw [List.length_append, List.length_cons] at hf
      omega
  | succ fuel ih =>
      by_cases hnil : p.dropWhile (· = slash) = []
      · have hall : ∀ c ∈ p, decide (c = slash) = true := List.dropWhile_eq_nil_iff.mp hnil
        have hdrop : (p ++ slash :: rest).dropWhile (· = slash) =
            (slash :: rest).dropWhile (· = slash) := List.dropWhile_append_of_pos hall
        rw [resolveLoop_done _ _ hnil]
        by_cases hend : (slash :: rest).dropWhile (· = slash) = []
        · rw [resolveLoop_done _ _ (hdrop.trans hend), resolveLoop_done _ _ hend]
        · rw [resolveLoop_step _ _ (hdrop ▸ hend), resolveLoop_step _ _ hend, hdrop]
      · generalize hq : p.dropWhile (· = slash) = q at hnil
        have hdrop : (p ++ slash :: rest).dropWhile (· = slash) = q ++ slash :: rest := by
          rw [List.dropWhile_append, hq, if_neg (by simpa using hnil)]
        have hcomp : firstComp (q ++ slash :: rest) = firstComp q := by
          rw [firstComp, firstComp, List.takeWhile_append]
          split
          · rename_i hall
            rw [List.takeWhile_cons_of_neg (by simp), List.append_nil, (List.takeWhile_prefix _).eq_of_length hall]
          · rfl
        have hround : resolveLoop p.length temp p =
            resolveLoop (q.drop (firstComp q).length).length (walkStep temp (firstComp q))
              (q.drop (firstComp q).length) := by
          have hlt := round_lt (hq ▸ hnil : p.dropWhile (· = slash) ≠ [])
          rw [hq] at hlt
          obtain ⟨f, hf⟩ : ∃ f, p.length = f + 1 := Nat.exists_eq_succ_of_ne_zero (by omega)
          rw [hf, resolveLoop_step _ _ (hq ▸ hnil), hq]
          exact resolveLoop_fuel (by omega) (Nat.le_refl _)
        have hlt := round_lt (hq ▸ hnil : p.dropWhile (· = slash) ≠ [])
        rw [hq] at hlt
        rw [resolveLoop_step _ _ (by rw [hdrop]; simp), hdrop, hcomp,
          List.drop_append_of_le_length (firstComp_le q), ih (by
            rw [List.length_append, List.length_cons] at hf ⊢
            omega), hround]
        refine resolveLoop_fuel ?_ ?_
        · rw [List.length_append, List.length_cons] at hf
          rw [List.length_cons]
          omega
        · rw [List.length_append, List.length_cons] at hf
          rw [List.length_cons]
          omega

end Rounds

/-! ## What the walk leaves -/

/-- The paths of the walk: the root, or names each behind a slash, with
another slash at the end only where the buffer is full. -/
inductive Walked : CStr → Prop
  | root : Walked [slash]
  | names {p name tail : CStr} : name ≠ [] → slash ∉ name → (p ≠ [] → Walked p) →
      tail = [] ∨ tail = [slash] ∧ (p ++ slash :: name).length = 254 →
      (p ++ slash :: name ++ tail).length ≤ 255 → Walked (p ++ slash :: name ++ tail)

section Walked

variable {temp comp path : CStr}

theorem Walked.length (h : Walked temp) : temp.length ≤ 255 := by
  cases h with
  | root => decide
  | names _ _ _ _ hlen => exact hlen

theorem Walked.ne_nil (h : Walked temp) : temp ≠ [] := by
  cases h with
  | root => exact List.cons_ne_nil _ _
  | names => simp

/-- The last byte is no slash where there is room. -/
theorem Walked.last (h : Walked temp) (hroot : temp ≠ [slash]) (hlen : temp.length < 255) :
    temp[temp.length - 1]? ≠ some slash := by
  cases h with
  | root => exact absurd rfl hroot
  | names hne hname _ htail _ =>
      rcases htail with rfl | ⟨rfl, hfull⟩
      · rw [← List.getLast?_eq_getElem?, List.append_nil, List.getLast?_append_of_ne_nil _
          (List.cons_ne_nil _ _), List.getLast?_cons_of_ne_nil hne]
        exact fun he => hname (List.mem_of_getLast? he)
      · rw [List.length_append, List.length_singleton] at hlen
        omega

theorem Walked.pop (h : Walked temp) : Walked (popComponent temp) := by
  cases h with
  | root => exact .root
  | names hne hname hp htail _ =>
      rw [popComponent_name hne hname (htail.imp_right And.left)]
      split
      · exact .root
      · rename_i hnil
        exact hp hnil

/-- A full buffer takes nothing more. -/
theorem pushComponent_full (hlen : temp.length = 255) (comp : CStr) : pushComponent temp comp = temp := by
  unfold pushComponent
  have hfull : ¬temp.length < pathMax - 1 := by
    rw [hlen]
    decide
  have hroom : pathMax - 1 - temp.length = 0 := by
    rw [hlen]
    rfl
  rw [if_neg hfull, ite_self]
  dsimp only
  rw [hroom, List.take_zero, List.append_nil]

/-- One byte of room is taken by the slash. -/
theorem Walked.push_last (h : Walked temp) (hlen : temp.length = 254) (comp : CStr) :
    pushComponent temp comp = temp ++ [slash] := by
  have hroot : temp ≠ [slash] := by
    rintro rfl
    cases hlen
  have hlast := h.last hroot (by omega)
  unfold pushComponent
  rw [if_pos (.inr hlast), if_pos (by rw [hlen]; decide)]
  dsimp only
  rw [List.length_append, hlen]
  show temp ++ [slash] ++ comp.take 0 = _
  rw [List.take_zero, List.append_nil]

/-- With more room, at least one byte of the name is taken. -/
theorem Walked.push_room (h : Walked temp) (hlen : temp.length < 254) :
    pushComponent temp comp = (if temp = [slash] then [] else temp) ++
      slash :: comp.take (254 - (if temp = [slash] then [] else temp).length) := by
  by_cases hroot : temp = [slash]
  · subst hroot
    rfl
  · rw [if_neg hroot]
    have hlast := h.last hroot (by omega)
    unfold pushComponent
    have hlt : temp.length < pathMax - 1 := by
      show temp.length < 255
      omega
    rw [if_pos (.inr hlast), if_pos hlt]
    dsimp only
    have hroom : pathMax - 1 - (temp ++ [slash]).length = 254 - temp.length := by
      rw [List.length_append, List.length_singleton]
      show 255 - (temp.length + 1) = _
      omega
    rw [hroom, List.append_assoc, List.singleton_append]

theorem Walked.push (h : Walked temp) (hne : comp ≠ []) (hcomp : slash ∉ comp) :
    Walked (pushComponent temp comp) := by
  have hlen := h.length
  rcases Nat.lt_trichotomy temp.length 254 with hlt | heq | hgt
  · rw [h.push_room hlt]
    have hp : (if temp = [slash] then [] else temp).length ≤ temp.length := by
      split
      · exact Nat.zero_le _
      · exact Nat.le_refl _
    have hp' : (if temp = [slash] then [] else temp) ≠ [] →
        Walked (if temp = [slash] then [] else temp) := by
      split
      · exact fun hne => absurd rfl hne
      · exact fun _ => h
    generalize (if temp = [slash] then [] else temp) = p at hp hp' ⊢
    have hpush : comp.take (254 - p.length) ≠ [] → slash ∉ comp.take (254 - p.length) →
        (p ++ slash :: comp.take (254 - p.length) ++ []).length ≤ 255 →
        Walked (p ++ slash :: comp.take (254 - p.length) ++ []) :=
      fun hne hname hlen => .names hne hname hp' (.inl rfl) hlen
    rw [List.append_nil] at hpush
    refine hpush ?_ ?_ ?_
    · rw [Ne, List.take_eq_nil_iff, not_or]
      exact ⟨by omega, hne⟩
    · exact fun hs => hcomp (List.mem_of_mem_take hs)
    · rw [List.length_append, List.length_cons, List.length_take]
      omega
  · rw [h.push_last heq]
    cases h with
    | root => cases heq
    | @names p name tail hne' hname hp htail hle =>
        rcases htail with rfl | ⟨rfl, hfull⟩
        · rw [List.append_nil] at heq ⊢
          exact .names hne' hname hp (.inr ⟨rfl, heq⟩) (by
            rw [List.length_append, heq, List.length_singleton])
        · rw [List.length_append, hfull] at heq
          cases heq
  · rw [pushComponent_full (by omega)]
    exact h

theorem Walked.step (h : Walked temp) (hne : comp ≠ []) (hcomp : slash ∉ comp) :
    Walked (walkStep temp comp) := by
  unfold walkStep
  split
  · exact h
  split
  · exact h.pop
  · exact h.push hne hcomp

theorem slash_notMem_firstComp (path : CStr) : slash ∉ firstComp path := by
  intro hs
  have := List.mem_takeWhile_imp (List.mem_of_mem_take hs)
  simp at this

theorem Walked.loop (h : Walked temp) (fuel : Nat) : Walked (resolveLoop fuel temp path) := by
  induction fuel generalizing temp path with
  | zero => exact h
  | succ fuel ih =>
      by_cases hnil : path.dropWhile (· = slash) = []
      · rw [resolveLoop_done _ _ hnil]
        exact h
      · rw [resolveLoop_step _ _ hnil]
        refine ih (h.step ?_ (slash_notMem_firstComp _))
        exact List.length_pos_iff.mp (firstComp_pos hnil)

/-- An absolute path leads to where the walk ends. -/
theorem resolve_absolute {dir : CStr} (hhead : dir.head? = some slash) (cwd : CStr) :
    vfsResolvePath cwd dir = resolveLoop dir.length [slash] (dir.drop 1) ∧
      Walked (vfsResolvePath cwd dir) := by
  have hw : Walked (resolveLoop dir.length [slash] (dir.drop 1)) := Walked.root.loop _
  have he : vfsResolvePath cwd dir = resolveLoop dir.length [slash] (dir.drop 1) := by
    rw [vfsResolvePath_absolute hhead hw.length, if_neg hw.ne_nil]
  exact ⟨he, he ▸ hw⟩

/-- A name behind a directory leads to where the walk from the directory
ends. -/
theorem resolve_joined {dir name : CStr} (hhead : dir.head? = some slash) (cwd : CStr) :
    vfsResolvePath cwd (dir ++ slash :: name) =
      resolveLoop (name.length + 1) (vfsResolvePath cwd dir) name := by
  obtain ⟨b, s, rfl⟩ := List.exists_cons_of_ne_nil (l := dir) (by rintro rfl; cases hhead)
  obtain ⟨hdir, _⟩ := resolve_absolute hhead cwd
  have hhead' : (b :: s ++ slash :: name).head? = some slash := hhead
  have hslash : ∀ {fuel : Nat} {temp : CStr}, resolveLoop (fuel + 1) temp (slash :: name) =
      resolveLoop (fuel + 1) temp name := by
    intro fuel temp
    rw [resolveLoop, resolveLoop, List.dropWhile_cons_of_pos (by simp)]
  rw [(resolve_absolute hhead' cwd).1, hdir, List.cons_append, List.drop_succ_cons, List.drop_succ_cons,
    List.drop_zero, List.drop_zero, List.length_cons, resolveLoop_append (Nat.le_succ _), hslash]
  have hlen : resolveLoop s.length [slash] s = resolveLoop (b :: s).length [slash] s :=
    resolveLoop_fuel (Nat.le_refl _) (Nat.le_succ _)
  rw [hlen]
  refine resolveLoop_fuel ?_ (Nat.le_succ _)
  rw [List.length_append, List.length_cons]
  omega

end Walked

end LiteBSD
