/-
# `LiteBSD.Initrd.Headers` — which names of a ustar header are decoded in full

A header has 100 bytes for the name, which is not terminated when it fills
them, and 155 for a prefix, which is to be put in front of it with a slash;
archives of deep trees use both.  `initrd_load` reads the name as a string
that begins where the field does: the bytes of a full one run on into the mode
behind it, and what the prefix holds is not looked at.  A full `linkname` runs
on into the magic.

`archivePath` is the path that a name spells.  The loader stores an entry
under it exactly if the name leaves a byte of its field free and the prefix
adds nothing (`decodedInFull_iff`).  A name that runs on could still happen to
spell the path of the name behind its prefix, the two being the same text when
shifted by some component; that it does not is a matter of the lengths of the
numbers in a header (`dvd_of_shift`).
-/
import LiteBSD.Initrd.Archive

namespace LiteBSD

open Lib

/-! ## The path of a name -/

/-- What is left of a name without `./` or slashes in front. -/
def entryBody (raw : CStr) : CStr := (stripDot raw).dropWhile (· = slash)

/-- The slash at the end of the name of a directory comes off. -/
def trimSlash (isDir : Bool) (s : CStr) : CStr :=
  if isDir ∧ s.getLast? = some slash then s.dropLast else s

/-- The path that the name of an entry spells, if it is not the root. -/
def archivePath (raw : CStr) (isDir : Bool) : Option CStr :=
  if raw = [dot] ∨ entryBody raw = [] then none else some (slash :: trimSlash isDir (entryBody raw))

/-- The name with its prefix. -/
def prefixedName (front name : CStr) : CStr := if front = [] then name else front ++ slash :: name

/-- The prefix adds nothing: it is empty, or it is dropped as a whole, and the
name has no `./` of its own that would then be kept. -/
def AddsNothing (front name : CStr) : Prop :=
  front = [] ∨ entryBody (front ++ [slash]) = [] ∧ name ≠ [dot] ∧ name.take 2 ≠ [dot, slash]

/-- A link's target has one slash in front at most. -/
def PlainTarget (lname : CStr) : Prop :=
  lname ≠ [dot] ∧ (spelledPath lname).tail ≠ [] ∧ (spelledPath lname).tail.head? ≠ some slash

section Text

variable {raw front name rest s m r : CStr} {isDir : Bool}

theorem length_trimSlash (isDir : Bool) (s : CStr) :
    (trimSlash isDir s).length ≤ s.length ∧ s.length ≤ (trimSlash isDir s).length + 1 := by
  unfold trimSlash
  split
  · rw [List.length_dropLast]
    omega
  · omega

theorem dropSlashes_slash (s : CStr) :
    (slash :: s).dropWhile (· = slash) = s.dropWhile (· = slash) :=
  List.dropWhile_cons_of_pos (decide_eq_true rfl)

theorem dropSlashes_other {b : UInt8} (hb : b ≠ slash) (s : CStr) :
    (b :: s).dropWhile (· = slash) = b :: s :=
  List.dropWhile_cons_of_neg (by simpa using hb)

theorem length_dropSlashes (s : CStr) : (s.dropWhile (· = slash)).length ≤ s.length :=
  (List.dropWhile_suffix _).length_le

theorem length_entryBody (raw : CStr) : (entryBody raw).length ≤ raw.length :=
  Nat.le_trans (length_dropSlashes _) (stripDot_suffix raw).length_le

theorem archivePath_some {path : CStr} (h : archivePath raw isDir = some path) :
    path = slash :: trimSlash isDir (entryBody raw) := by
  unfold archivePath at h
  split at h
  · cases h
  · exact (Option.some.inj h).symm

theorem archivePath_eq (hdot : raw ≠ [dot]) (hbody : entryBody raw ≠ []) :
    archivePath raw isDir = some (slash :: trimSlash isDir (entryBody raw)) :=
  if_neg (not_or.mpr ⟨hdot, hbody⟩)

/-- `normalize_path` keeps what fits into its buffer. -/
theorem normalizePath_eq (isDir : Bool) (h : raw.length ≤ 254) :
    normalizePath raw 256 isDir = archivePath raw isDir := by
  have hshort := Nat.le_trans (length_entryBody raw) h
  unfold normalizePath archivePath
  by_cases hdot : raw = [dot]
  · rw [if_pos hdot, if_pos (.inl hdot)]
  rw [if_neg hdot]
  dsimp only
  rw [← stripDot, ← entryBody]
  generalize entryBody raw = body at hshort ⊢
  by_cases hbody : body = []
  · rw [if_pos hbody, if_pos (.inr hbody)]
  rw [if_neg hbody, if_neg (not_or.mpr ⟨hdot, hbody⟩), List.take_of_length_le hshort, trimSlash,
    List.getLast?_cons_of_ne_nil hbody, List.length_cons]
  have hlen : body.length + 1 > 1 := Nat.succ_lt_succ (List.length_pos_iff.mpr hbody)
  simp only [hlen, true_and]
  split
  · rw [List.dropLast_cons_of_ne_nil hbody]
  · rfl

theorem stripDot_append (h : 2 ≤ s.length) (rest : CStr) : stripDot (s ++ rest) = stripDot s ++ rest := by
  unfold stripDot
  rw [List.take_append_of_le_length h]
  split
  · rw [List.drop_append_of_le_length h]
  · rfl

/-- What is in front is dropped as a whole, or stays in front. -/
theorem entryBody_append (h : 2 ≤ s.length) (rest : CStr) : entryBody (s ++ rest) =
    if entryBody s = [] then rest.dropWhile (· = slash) else entryBody s ++ rest := by
  unfold entryBody
  rw [stripDot_append h, List.dropWhile_append]
  simp only [List.isEmpty_iff]

theorem entryBody_of_plain (h : raw.take 2 ≠ [dot, slash]) :
    entryBody raw = raw.dropWhile (· = slash) := by
  rw [entryBody, stripDot, if_neg h]

theorem eq_dotSlash (h : raw.take 2 = [dot, slash]) : raw = dot :: slash :: raw.drop 2 := by
  conv_lhs => rw [← List.take_append_drop 2 raw, h]
  rfl

theorem entryBody_dotSlash (rest : CStr) :
    entryBody (dot :: slash :: rest) = rest.dropWhile (· = slash) := rfl

theorem prefixedName_eq (hfront : front ≠ []) : prefixedName front name = (front ++ [slash]) ++ name := by
  rw [prefixedName, if_neg hfront, List.append_assoc]
  rfl

theorem length_front (hfront : front ≠ []) : 2 ≤ (front ++ [slash]).length := by
  have hpos := List.length_pos_iff.mpr hfront
  rw [List.length_append, List.length_singleton]
  omega

theorem prefixedName_ne_dot (hfront : front ≠ []) : prefixedName front name ≠ [dot] := by
  intro h
  have hlen := congrArg List.length h
  have htwo := length_front hfront
  rw [prefixedName_eq hfront, List.length_append, List.length_singleton] at hlen
  omega

/-- A prefix that stays is a text and a slash. -/
theorem frontBody (hbody : entryBody (front ++ [slash]) ≠ []) :
    ∃ p, p ≠ [] ∧ entryBody (front ++ [slash]) = p ++ [slash] := by
  obtain ⟨u, hu⟩ := (List.dropWhile_suffix (· = slash)).trans (stripDot_suffix (front ++ [slash]))
  have hlast : (entryBody (front ++ [slash])).getLast? = some slash := by
    rw [← List.getLast?_append_of_ne_nil u hbody, entryBody, hu, List.getLast?_concat]
  refine ⟨(entryBody (front ++ [slash])).dropLast, ?_, (List.dropLast_append_getLast? slash hlast).symm⟩
  intro hnil
  have hone : entryBody (front ++ [slash]) = [slash] := by
    rw [← List.dropLast_append_getLast? slash hlast, hnil]
    rfl
  -- its first byte would be a slash
  have hhead := List.head?_dropWhile_not (fun b : UInt8 => decide (b = slash)) (stripDot (front ++ [slash]))
  rw [← entryBody, hone] at hhead
  have hother : decide (slash = slash) = false := hhead
  exact absurd hother (by decide)

/-! ## The prefix of a name that is read as it is -/

/-- The path is the same without the prefix exactly if that adds nothing. -/
theorem archivePath_prefix_iff (isDir : Bool) (hname : name ≠ []) :
    archivePath name isDir = archivePath (prefixedName front name) isDir ↔ AddsNothing front name := by
  unfold AddsNothing
  by_cases hfront : front = []
  · rw [prefixedName, if_pos hfront]
    exact iff_of_true rfl (.inl hfront)
  have hdot := @prefixedName_ne_dot front name hfront
  have hbody : entryBody (prefixedName front name) =
      if entryBody (front ++ [slash]) = [] then name.dropWhile (· = slash)
      else entryBody (front ++ [slash]) ++ name := by
    rw [prefixedName_eq hfront, entryBody_append (length_front hfront)]
  have htrim := length_trimSlash isDir (entryBody (prefixedName front name))
  have htrim' := length_trimSlash isDir (entryBody name)
  have hlong := length_entryBody name
  -- the two paths as soon as the second is one
  have hpaths (hne : entryBody (prefixedName front name) ≠ [])
      (h : archivePath name isDir = archivePath (prefixedName front name) isDir) :
      trimSlash isDir (entryBody name) = trimSlash isDir (entryBody (prefixedName front name)) := by
    rw [archivePath_eq hdot hne] at h
    exact (List.cons.inj (archivePath_some h)).2.symm
  rw [or_iff_right hfront]
  by_cases hdrop : entryBody (front ++ [slash]) = []
  · rw [and_iff_right hdrop]
    rw [if_pos hdrop] at hbody
    constructor
    · intro h
      constructor
      · rintro rfl
        have hnone : archivePath [dot] isDir = none := if_pos (.inl rfl)
        rw [hnone, archivePath_eq hdot (by rw [hbody]; decide)] at h
        cases h
      · intro htake
        have hsplit := eq_dotSlash htake
        rw [hsplit, dropSlashes_other (by decide), ← hsplit] at hbody
        have hsame := congrArg List.length (hpaths (by rw [hbody]; exact hname) h)
        have hinner : (entryBody name).length ≤ (name.drop 2).length := by
          rw [hsplit]
          exact length_dropSlashes _
        have hlen := congrArg List.length hsplit
        rw [hbody] at htrim hsame
        simp only [List.length_cons] at hlen
        omega
    · rintro ⟨hne, htake⟩
      have hsame : entryBody name = entryBody (prefixedName front name) := by
        rw [hbody, entryBody_of_plain htake]
      unfold archivePath
      rw [hsame]
      simp only [hne, hdot, false_or]
  · rw [if_neg hdrop] at hbody
    refine iff_of_false (fun h => ?_) fun h => hdrop h.1
    obtain ⟨p, hp, hq⟩ := frontBody hdrop
    have hpos := List.length_pos_iff.mpr hp
    have hne : entryBody (prefixedName front name) ≠ [] := by
      rw [hbody]
      exact List.append_ne_nil_of_left_ne_nil hdrop name
    have hsame := congrArg List.length (hpaths hne h)
    rw [hbody, hq, List.length_append, List.length_append, List.length_singleton] at htrim
    rw [hbody, hq] at hsame
    omega

/-! ## A name that runs on -/

/-- A text that is the same when `p` is put in front and what is behind its
last slash runs on is made of components as long as `p`. -/
theorem dvd_of_shift {p : CStr} (hp : slash ∉ p) (h : p ++ slash :: m = m ++ slash :: r) :
    p.length + 1 ∣ m.length + 1 := by
  induction hlen : m.length using Nat.strong_induction_on generalizing m with
  | _ len ih =>
    subst hlen
    rcases List.append_eq_append_iff.mp h with ⟨a, ha, hrest⟩ | ⟨c, hc, hrest⟩
    · cases a with
      | nil =>
          rw [List.append_nil] at ha
          rw [ha]
      | cons b a =>
          obtain ⟨rfl, hshift⟩ := List.cons.inj hrest
          rw [ha] at hshift
          have hlt : a.length < m.length := by
            rw [ha, List.length_append, List.length_cons]
            omega
          have hdvd := ih a.length hlt hshift rfl
          have hsum : m.length + 1 = (p.length + 1) + (a.length + 1) := by
            rw [ha, List.length_append, List.length_cons]
            omega
          rw [hsum]
          exact Nat.dvd_add (Nat.dvd_refl _) hdvd
    · cases c with
      | nil =>
          rw [List.append_nil] at hc
          rw [hc]
      | cons b c =>
          obtain ⟨rfl, _⟩ := List.cons.inj hrest
          rw [hc] at hp
          exact absurd (List.mem_append_right m List.mem_cons_self) hp

theorem count_dropSlashes (s : CStr) :
    s.dropWhile (· = slash) = s ∨ (s.dropWhile (· = slash)).count slash < s.count slash := by
  cases s with
  | nil => exact .inl rfl
  | cons b s =>
      by_cases hb : b = slash
      · right
        subst hb
        rw [dropSlashes_slash, List.count_cons_self]
        exact Nat.lt_succ_of_le ((List.dropWhile_suffix _).sublist.count_le slash)
      · exact .inl (dropSlashes_other hb s)

/-- What is dropped of a name has a slash. -/
theorem count_entryBody (name : CStr) :
    entryBody name = name ∨ (entryBody name).count slash < name.count slash := by
  by_cases htake : name.take 2 = [dot, slash]
  · right
    rw [eq_dotSlash htake, entryBody_dotSlash, List.count_cons_of_ne (by decide), List.count_cons_self]
    exact Nat.lt_succ_of_le ((List.dropWhile_suffix _).sublist.count_le slash)
  · rw [entryBody_of_plain htake]
    exact count_dropSlashes name

/-- A text with `p` in front, or what is left of it, running on: the second
has fewer slashes, or the two are out of step. -/
theorem shift_of_runOn {p n u run : CStr} (hn : n ≠ []) (hu : u = n ∨ u.count slash < n.count slash)
    (hrun : slash ∉ run) (h : p ++ slash :: n = u ++ run ∨ p ++ slash :: n = u ++ run ++ [slash]) :
    p.length = run.length ∧ p.length + 1 ∣ n.length := by
  have hnone : run.count slash = 0 := List.count_eq_zero.mpr hrun
  have hfew : u.count slash ≤ n.count slash := by
    rcases hu with rfl | hlt
    · exact Nat.le_refl _
    · exact Nat.le_of_lt hlt
  rcases h with h | h
  · have hcount := congrArg (List.count slash) h
    rw [List.count_append, List.count_append, List.count_cons_self] at hcount
    omega
  have hcount := congrArg (List.count slash) h
  rw [List.count_append, List.count_append, List.count_append, List.count_cons_self,
    List.count_singleton_self] at hcount
  have hp : slash ∉ p := List.count_eq_zero.mp (by omega)
  obtain rfl : u = n := hu.resolve_right (by omega)
  have hlast : u.getLast? = some slash := by
    have hends := congrArg List.getLast? h
    rwa [List.getLast?_append_of_ne_nil p (List.cons_ne_nil _ _), List.getLast?_cons_of_ne_nil hn,
      List.getLast?_concat] at hends
  have hsplit : u.dropLast ++ [slash] = u := List.dropLast_append_getLast? slash hlast
  have hlen := congrArg List.length h
  simp only [List.length_append, List.length_cons, List.length_nil] at hlen
  refine ⟨by omega, ?_⟩
  rw [← hsplit] at h
  have hboth : (p ++ slash :: u.dropLast) ++ [slash] = (u.dropLast ++ slash :: run) ++ [slash] := by
    simpa using h
  have hdvd := dvd_of_shift hp (List.append_cancel_right hboth)
  have hpos := List.length_pos_iff.mpr hn
  rwa [List.length_dropLast, Nat.sub_add_cancel hpos] at hdvd

/-- What a full name runs on into. -/
structure RunsOn (run : CStr) : Prop where
  long : 1 < run.length
  no_slash : slash ∉ run
  out_of_step : ¬run.length + 1 ∣ 100

theorem RunsOn.ne_nil (h : RunsOn r) : r ≠ [] :=
  List.ne_nil_of_length_pos (Nat.lt_of_succ_lt h.long)

theorem entryBody_runOn (hlen : 2 ≤ name.length) (h : RunsOn r) :
    entryBody (name ++ r) = entryBody name ++ r := by
  rw [entryBody_append hlen]
  split
  · rename_i hnil
    rw [hnil, List.nil_append]
    refine (count_dropSlashes r).resolve_right fun hlt => ?_
    rw [List.count_eq_zero.mpr h.no_slash] at hlt
    exact Nat.not_lt_zero _ hlt
  · rfl

theorem archivePath_runOn (isDir : Bool) (hlen : 2 ≤ name.length) (h : RunsOn r) :
    archivePath (name ++ r) isDir = some (slash :: (entryBody name ++ r)) := by
  have hdot : name ++ r ≠ [dot] := by
    intro he
    have hl := congrArg List.length he
    rw [List.length_append, List.length_singleton] at hl
    omega
  have hbody := entryBody_runOn hlen h
  have hlast : (entryBody name ++ r).getLast? ≠ some slash := by
    rw [List.getLast?_append_of_ne_nil _ h.ne_nil]
    exact fun he => h.no_slash (List.mem_of_getLast? he)
  rw [archivePath_eq hdot (by rw [hbody]; exact List.append_ne_nil_of_right_ne_nil _ h.ne_nil), hbody,
    trimSlash, if_neg fun hc => hlast hc.2]

theorem trimSlash_cases (isDir : Bool) (s : CStr) :
    s = trimSlash isDir s ∨ s = trimSlash isDir s ++ [slash] := by
  unfold trimSlash
  split
  · rename_i h
    exact .inr (List.dropLast_append_getLast? slash h.2).symm
  · exact .inl rfl

/-- A full name that runs on spells another path. -/
theorem archivePath_runOn_ne (front : CStr) (isDir : Bool) (hlen : name.length = 100) (h : RunsOn r) :
    archivePath (name ++ r) isDir ≠ archivePath (prefixedName front name) isDir := by
  rw [archivePath_runOn isDir (by omega) h]
  intro hsame
  have htrim := (List.cons.inj (archivePath_some hsame.symm)).2
  have hcases := trimSlash_cases isDir (entryBody (prefixedName front name))
  rw [← htrim] at hcases
  have hlong := h.long
  have hname : name ≠ [] := List.ne_nil_of_length_pos (by omega)
  -- with nothing of the prefix left, the path would be too short
  have hshort : entryBody (prefixedName front name) ≠ entryBody name := by
    intro hbody
    rw [hbody] at hcases
    rcases hcases with hc | hc
    · have hl := congrArg List.length hc
      rw [List.length_append] at hl
      omega
    · have hl := congrArg List.length hc
      rw [List.length_append, List.length_append] at hl
      omega
  by_cases hfront : front = []
  · exact hshort (by rw [prefixedName, if_pos hfront])
  have hbody : entryBody (prefixedName front name) =
      if entryBody (front ++ [slash]) = [] then name.dropWhile (· = slash)
      else entryBody (front ++ [slash]) ++ name := by
    rw [prefixedName_eq hfront, entryBody_append (length_front hfront)]
  by_cases hdrop : entryBody (front ++ [slash]) = []
  · rw [if_pos hdrop] at hbody
    by_cases htake : name.take 2 = [dot, slash]
    · -- the `./` of the name is left: a component of one byte
      have hsplit := eq_dotSlash htake
      have hkept : entryBody (prefixedName front name) = [dot] ++ slash :: name.drop 2 := by
        rw [hbody]
        conv_lhs => rw [hsplit]
        rfl
      have hinner : entryBody name = (name.drop 2).dropWhile (· = slash) := by
        conv_lhs => rw [hsplit]
        rfl
      rw [hkept, hinner] at hcases
      have hrest : name.drop 2 ≠ [] := List.ne_nil_of_length_pos (by rw [List.length_drop]; omega)
      have hone := (shift_of_runOn hrest (count_dropSlashes _) h.no_slash hcases).1
      rw [List.length_singleton] at hone
      omega
    · exact hshort (by rw [hbody, entryBody_of_plain htake])
  · rw [if_neg hdrop] at hbody
    obtain ⟨p, _, hp⟩ := frontBody hdrop
    rw [hbody, hp, List.append_assoc, List.singleton_append] at hcases
    obtain ⟨hrun, hdvd⟩ := shift_of_runOn hname (count_entryBody name) h.no_slash hcases
    rw [hrun, hlen] at hdvd
    exact h.out_of_step hdvd

/-! ## Targets of links -/

theorem entryBody_eq_spelled (lname : CStr) :
    entryBody lname = (spelledPath lname).tail.dropWhile (· = slash) := by
  unfold spelledPath
  split
  · rename_i hhead
    have htake : lname.take 2 ≠ [dot, slash] := by
      intro htake
      rw [eq_dotSlash htake] at hhead
      exact absurd (Option.some.inj hhead) (by decide)
    obtain ⟨b, rest, rfl⟩ := List.exists_cons_of_ne_nil
      (fun hnil : lname = [] => by rw [hnil] at hhead; cases hhead)
    obtain rfl : b = slash := Option.some.inj hhead
    rw [entryBody_of_plain htake, dropSlashes_slash, List.tail_cons]
  · rfl

/-- The target of a link that leaves room in its field. -/
theorem targetPath_iff {lname : CStr} (hlen : lname.length < 100) :
    some (targetPath lname) = archivePath lname false ↔ PlainTarget lname := by
  have hspelled : spelledPath lname = slash :: (spelledPath lname).tail := by
    unfold spelledPath
    split
    · rename_i hhead
      obtain ⟨b, rest, rfl⟩ := List.exists_cons_of_ne_nil
        (fun hnil : lname = [] => by rw [hnil] at hhead; cases hhead)
      exact congrArg (· :: rest) (Option.some.inj hhead)
    · rfl
  rw [targetPath_eq hlen, archivePath, entryBody_eq_spelled, PlainTarget]
  generalize (spelledPath lname).tail = t at hspelled
  rw [hspelled]
  by_cases hdot : lname = [dot]
  · rw [if_pos (.inl hdot)]
    exact iff_of_false nofun fun h => h.1 hdot
  rw [and_iff_right hdot]
  simp only [hdot, false_or]
  cases t with
  | nil => exact iff_of_false nofun fun h => h.1 rfl
  | cons b t =>
      rw [and_iff_right (List.cons_ne_nil b t), List.head?_cons]
      by_cases hb : b = slash
      · subst hb
        refine iff_of_false (fun h => ?_) fun h => h rfl
        rw [dropSlashes_slash] at h
        have hshort := length_dropSlashes t
        split at h
        · cases h
        · have hl := congrArg List.length (Option.some.inj h)
          rw [trimSlash, if_neg fun hc => absurd hc.1 Bool.false_ne_true, List.length_cons,
            List.length_cons, List.length_cons] at hl
          omega
      · rw [dropSlashes_other hb, if_neg (List.cons_ne_nil b t), trimSlash, if_neg fun hc => absurd hc.1 Bool.false_ne_true]
        exact iff_of_true rfl fun he => hb (Option.some.inj he)

/-- A target that runs on is too long. -/
theorem targetPath_runOn_ne {lname : CStr} (hlen : lname.length = 100) (hlong : 3 ≤ r.length) :
    some (targetPath (lname ++ r)) ≠ archivePath lname false := by
  intro h
  have hshort := length_entryBody lname
  have hl := congrArg List.length (archivePath_some h.symm)
  rw [trimSlash, if_neg fun hc => absurd hc.1 Bool.false_ne_true, List.length_cons] at hl
  have hfull : 102 ≤ (targetPath (lname ++ r)).length := by
    unfold targetPath
    split
    · rw [List.length_cons, List.length_take, List.length_drop, List.length_append]
      omega
    split
    · rw [List.length_cons, List.length_take, List.length_append]
      omega
    · rw [List.length_take, List.length_append]
      omega
  omega

end Text

/-! ## The fields of a header -/

def tarChksum : Nat := 148
def tarMagic : Nat := 257
def tarVersion : Nat := 263

/-- `mode`, `uid`, `gid`, `size`, `mtime` and `chksum`: where they are, and how
long. -/
def numberFields : List (Nat × Nat) :=
  [(100, 8), (108, 8), (116, 8), (tarSize, 12), (136, 12), (tarChksum, 8)]

def isOctal (b : UInt8) : Bool := 48 ≤ b ∧ b ≤ 55

/-- What ends a number. -/
def isBlank (b : UInt8) : Bool := b = 32 ∨ b = 0

/-- A number: octal digits, with zeros in front, and behind them two bytes at
most. -/
def NumberAt (mem : Nat → UInt8) (a width : Nat) : Prop :=
  ∀ i < width, isOctal (mem (a + i)) = true ∨ width ≤ i + 2 ∧ isBlank (mem (a + i)) = true

instance (mem : Nat → UInt8) (a width : Nat) : Decidable (NumberAt mem a width) :=
  inferInstanceAs (Decidable (∀ i < width, _))

/-- The checksum of a header: its own field counts as blanks. -/
def headerSum (mem : Nat → UInt8) (addr : Nat) : Nat :=
  ((memBytes mem addr tarChksum ++ List.replicate 8 32 ++
    memBytes mem (addr + tarTypeflag) (512 - tarTypeflag)).map UInt8.toNat).sum

/-- A field that is a name: it ends at its first NUL, or fills its bytes. -/
def nameField (mem : Nat → UInt8) (addr : Nat) : CStr := memString mem addr 100

def prefixField (mem : Nat → UInt8) (addr : Nat) : CStr := memString mem (addr + tarPrefix) 155

def linknameField (mem : Nat → UInt8) (addr : Nat) : CStr := memString mem (addr + tarLinkname) 100

/-- A valid header. -/
structure UstarHeader (mem : Nat → UInt8) (addr : Nat) : Prop where
  fits : addr + 512 ≤ 4294967296
  name : mem addr ≠ 0
  numbers : ∀ field ∈ numberFields, NumberAt mem (addr + field.1) field.2
  /-- the checksum has six digits, a NUL and a blank -/
  chksum_end : mem (addr + (tarChksum + 6)) = 0
  chksum : octToInt 0 (memBytes mem (addr + tarChksum) 8) = headerSum mem addr
  magic : memBytes mem (addr + tarMagic) 6 = str "ustar" ++ [0]
  version : memBytes mem (addr + tarVersion) 2 = str "00"

/-- The path that the loader takes from a header. -/
def takenPath (mem : Nat → UInt8) (addr : Nat) : Option CStr :=
  normalizePath (memCStr mem addr) 256 (isDirType (headerType mem addr))

/-- The target that it takes, if the entry is a link. -/
def takenTarget (mem : Nat → UInt8) (addr : Nat) : CStr := targetPath (memCStr mem (addr + tarLinkname))

/-- The path that the header spells. -/
def headerPath (mem : Nat → UInt8) (addr : Nat) : Option CStr :=
  archivePath (prefixedName (prefixField mem addr) (nameField mem addr)) (isDirType (headerType mem addr))

/-- The target that it spells. -/
def headerTarget (mem : Nat → UInt8) (addr : Nat) : Option CStr :=
  archivePath (linknameField mem addr) false

/-- The loader takes from the header what it spells. -/
def DecodedInFull (mem : Nat → UInt8) (addr : Nat) : Prop :=
  takenPath mem addr = headerPath mem addr ∧
    (isLinkType (headerType mem addr) = true → some (takenTarget mem addr) = headerTarget mem addr)

/-- What the loader does with an entry, under a path and with a target. -/
def loadAs (mem : Nat → UInt8) (c : Caller) (stop : Nat) (v : Vfs) (addr : Nat) (path target : Option CStr) :
    Exec Vfs :=
  let type := headerType mem addr
  match path with
  | none => .ret v
  | some path => do
      let v ← ensureParentDirs v c path
      if isDirType type then do
        let (v, _) ← vfsMkdir v c path
        .ret v
      else if isFileType type then loadFile mem stop addr v c path
      else if isLinkType type then
        match target with
        | none => .ret v
        | some target => loadLink v c path target
      else .ret v

section Reading

variable {mem : Nat → UInt8} {a k n : Nat}

theorem length_memString (mem : Nat → UInt8) (a n : Nat) : (memString mem a n).length ≤ n := by
  induction n generalizing a with
  | zero => exact Nat.le_refl 0
  | succ n ih =>
      rw [memString]
      split
      · exact Nat.zero_le _
      · exact Nat.succ_le_succ (ih (a + 1))

/-- A string that ends within `k` bytes is the same however many are read. -/
theorem memString_short (n : Nat) (h : (memString mem a k).length < k) :
    memString mem a (k + n) = memString mem a k := by
  induction k generalizing a with
  | zero => exact absurd h (Nat.not_lt_zero _)
  | succ k ih =>
      rw [Nat.succ_add]
      rw [memString] at h
      rw [memString, memString]
      split
      · rfl
      · rename_i hzero
        rw [if_neg hzero] at h
        exact congrArg _ (ih (Nat.lt_of_succ_lt_succ h))

/-- A string that does not goes on behind them. -/
theorem memString_full (n : Nat) (h : (memString mem a k).length = k) :
    memString mem a (k + n) = memString mem a k ++ memString mem (a + k) n := by
  induction k generalizing a with
  | zero => rw [Nat.zero_add, Nat.add_zero, memString, List.nil_append]
  | succ k ih =>
      rw [Nat.succ_add]
      rw [memString] at h
      rw [memString, memString]
      split
      · rename_i hzero
        rw [if_pos hzero] at h
        cases h
      · rename_i hzero
        rw [if_neg hzero] at h
        rw [ih (Nat.succ.inj h), List.cons_append, Nat.add_right_comm, Nat.add_assoc a k 1]

theorem getElem_memString {i : Nat} (hi : i < (memString mem a n).length) :
    (memString mem a n)[i] = mem (u32 (a + i)) := by
  induction n generalizing a i with
  | zero => exact absurd hi (Nat.not_lt_zero _)
  | succ n ih =>
      by_cases hzero : mem (u32 a) = 0
      · rw [memString, if_pos hzero] at hi
        exact absurd hi (Nat.not_lt_zero _)
      · have hcons : memString mem a (n + 1) = mem (u32 a) :: memString mem (a + 1) n := by
          rw [memString, if_neg hzero]
        simp only [hcons] at hi ⊢
        cases i with
        | zero => rfl
        | succ i =>
            rw [List.getElem_cons_succ, ih (Nat.lt_of_succ_lt_succ hi), Nat.add_assoc, Nat.add_comm 1 i]

/-- A string ends at a NUL. -/
theorem memString_end (h : (memString mem a n).length < n) :
    mem (u32 (a + (memString mem a n).length)) = 0 := by
  induction n generalizing a with
  | zero => exact absurd h (Nat.not_lt_zero _)
  | succ n ih =>
      rw [memString] at h ⊢
      split
      · rename_i hzero
        exact hzero
      · rename_i hzero
        rw [if_neg hzero] at h
        rw [List.length_cons, Nat.add_comm _ 1, ← Nat.add_assoc]
        exact ih (Nat.lt_of_succ_lt_succ h)

/-- It ends at the first. -/
theorem length_memString_le (hzero : mem (u32 (a + k)) = 0) : (memString mem a n).length ≤ k := by
  induction n generalizing a k with
  | zero => exact Nat.zero_le k
  | succ n ih =>
      rw [memString]
      split
      · exact Nat.zero_le k
      · rename_i hne
        cases k with
        | zero => exact absurd hzero hne
        | succ k =>
            refine Nat.succ_le_succ (ih (k := k) ?_)
            rwa [Nat.add_assoc, Nat.add_comm 1 k]

theorem le_length_memString (hk : k ≤ n) (h : ∀ i < k, mem (u32 (a + i)) ≠ 0) :
    k ≤ (memString mem a n).length := by
  by_contra hlt
  have hshort := Nat.lt_of_not_le hlt
  exact h _ hshort (memString_end (Nat.lt_of_lt_of_le hshort hk))

end Reading

section Headers

variable {mem : Nat → UInt8} {addr : Nat}

/-- The bytes of the numbers: digits, and at their ends what ends them. -/
theorem UstarHeader.digit (h : UstarHeader mem addr) {i : Nat} (hi : i < 56) :
    isOctal (mem (addr + 100 + i)) = true ∨
      i ∈ [6, 7, 14, 15, 22, 23, 34, 35, 46, 47, 54, 55] ∧ isBlank (mem (addr + 100 + i)) = true := by
  have hfield {o w j : Nat} (hmem : (o, w) ∈ numberFields) (hj : j < w) (hoffset : o + j = 100 + i)
      (hends : w ≤ j + 2 → i ∈ [6, 7, 14, 15, 22, 23, 34, 35, 46, 47, 54, 55]) :
      isOctal (mem (addr + 100 + i)) = true ∨
        i ∈ [6, 7, 14, 15, 22, 23, 34, 35, 46, 47, 54, 55] ∧ isBlank (mem (addr + 100 + i)) = true := by
    have hnumber := h.numbers (o, w) hmem j hj
    have haddr : addr + o + j = addr + 100 + i := by omega
    rw [haddr] at hnumber
    exact hnumber.imp_right fun hb => ⟨hends hb.1, hb.2⟩
  simp only [List.mem_cons, List.not_mem_nil, or_false] at hfield ⊢
  rcases Nat.lt_or_ge i 8 with h1 | h1
  · exact hfield (o := 100) (w := 8) (j := i) (by decide) (by omega) (by omega) (by omega)
  rcases Nat.lt_or_ge i 16 with h2 | h2
  · exact hfield (o := 108) (w := 8) (j := i - 8) (by decide) (by omega) (by omega) (by omega)
  rcases Nat.lt_or_ge i 24 with h3 | h3
  · exact hfield (o := 116) (w := 8) (j := i - 16) (by decide) (by omega) (by omega) (by omega)
  rcases Nat.lt_or_ge i 36 with h4 | h4
  · exact hfield (o := 124) (w := 12) (j := i - 24) (by decide) (by omega) (by omega) (by omega)
  rcases Nat.lt_or_ge i 48 with h5 | h5
  · exact hfield (o := 136) (w := 12) (j := i - 36) (by decide) (by omega) (by omega) (by omega)
  · exact hfield (o := 148) (w := 8) (j := i - 48) (by decide) (by omega) (by omega) (by omega)

theorem UstarHeader.length_run (h : UstarHeader mem addr) (n : Nat) :
    (memString mem (addr + 100) n).length ≤ 54 := by
  have hfits := h.fits
  refine length_memString_le ?_
  rw [u32_of_lt (by omega)]
  exact h.chksum_end

/-- What a full name runs on into, in a valid header. -/
theorem UstarHeader.runsOn (h : UstarHeader mem addr) {n : Nat} (hn : 55 ≤ n) :
    RunsOn (memString mem (addr + 100) n) := by
  have hfits := h.fits
  have hword {i : Nat} (hi : i < 56) : u32 (addr + 100 + i) = addr + 100 + i := u32_of_lt (by omega)
  have hstop := h.length_run n
  have hzero := memString_end (Nat.lt_of_le_of_lt hstop hn)
  rw [hword (by omega)] at hzero
  have hends : (memString mem (addr + 100) n).length ∈ [6, 7, 14, 15, 22, 23, 34, 35, 46, 47, 54, 55] := by
    rcases h.digit (Nat.lt_of_le_of_lt hstop (by decide)) with hdigit | hblank
    · rw [hzero] at hdigit
      exact absurd hdigit (by decide)
    · exact hblank.1
  refine ⟨?_, ?_, ?_⟩
  · simp only [List.mem_cons, List.not_mem_nil, or_false] at hends
    omega
  · intro hmem
    obtain ⟨i, hi, hslash⟩ := List.getElem_of_mem hmem
    rw [getElem_memString hi, hword (by omega)] at hslash
    have hclass := h.digit (i := i) (by omega)
    rw [hslash] at hclass
    rcases hclass with hdigit | hblank
    · exact absurd hdigit (by decide)
    · exact absurd hblank.2 (by decide)
  · have hsteps : ∀ l ∈ [6, 7, 14, 15, 22, 23, 34, 35, 46, 47, 54, 55], ¬l + 1 ∣ 100 := by decide
    exact hsteps _ hends

/-- A full linkname runs on into the magic. -/
theorem UstarHeader.linkRunsOn (h : UstarHeader mem addr) {n : Nat} (hn : 3 ≤ n) :
    3 ≤ (memString mem (addr + tarMagic) n).length := by
  refine le_length_memString hn fun i hi => ?_
  have hget : (memBytes mem (addr + tarMagic) 6)[i]? = some (mem (u32 (addr + tarMagic + i))) := by
    rw [memBytes, List.getElem?_map, List.getElem?_range (by omega)]
    rfl
  rw [h.magic] at hget
  have hustar : ∀ j < 3, (str "ustar" ++ [0])[j]? ≠ some 0 := by decide
  exact fun hzero => hustar i hi (hget.trans (congrArg some hzero))

theorem memCStr_eq (mem : Nat → UInt8) (a : Nat) :
    memCStr mem a = memString mem a (100 + 4294967196) := rfl

theorem UstarHeader.takenPath_iff (h : UstarHeader mem addr) :
    takenPath mem addr = headerPath mem addr ↔
      (nameField mem addr).length < 100 ∧ AddsNothing (prefixField mem addr) (nameField mem addr) := by
  unfold takenPath headerPath
  rcases Nat.lt_or_ge (nameField mem addr).length 100 with hshort | hfull
  · have hname : nameField mem addr ≠ [] := by
      rw [nameField, memString, u32_of_lt (by have := h.fits; omega), if_neg h.name]
      exact List.cons_ne_nil _ _
    rw [memCStr_eq, memString_short 4294967196 hshort, ← nameField, and_iff_right hshort,
      normalizePath_eq _ (by omega)]
    exact archivePath_prefix_iff _ hname
  · have hlen : (nameField mem addr).length = 100 := Nat.le_antisymm (length_memString mem addr 100) hfull
    have hrun := h.runsOn (n := 4294967196) (by decide)
    refine iff_of_false ?_ fun hc => absurd hc.1 (Nat.not_lt.mpr hfull)
    have hstop := h.length_run 4294967196
    have hraw : (nameField mem addr ++ memString mem (addr + 100) 4294967196).length ≤ 254 := by
      rw [List.length_append, hlen]
      omega
    rw [memCStr_eq, memString_full 4294967196 hlen, ← nameField, normalizePath_eq _ hraw]
    exact archivePath_runOn_ne _ _ hlen hrun

/-- For every valid header: the entry is stored under the path that the header
spells, and a link goes to the target that it spells, exactly if the name does
not fill its field and the prefix adds nothing to it, and if the target of a
link does not fill its field and has no slash too many. -/
theorem decodedInFull_iff (h : UstarHeader mem addr) : DecodedInFull mem addr ↔
    ((nameField mem addr).length < 100 ∧ AddsNothing (prefixField mem addr) (nameField mem addr)) ∧
      (isLinkType (headerType mem addr) = true →
        (linknameField mem addr).length < 100 ∧ PlainTarget (linknameField mem addr)) := by
  refine and_congr h.takenPath_iff (imp_congr_right fun _ => ?_)
  unfold takenTarget headerTarget
  rcases Nat.lt_or_ge (linknameField mem addr).length 100 with hshort | hfull
  · rw [memCStr_eq, memString_short 4294967196 hshort, ← linknameField, and_iff_right hshort]
    exact targetPath_iff hshort
  · have hlen : (linknameField mem addr).length = 100 :=
      Nat.le_antisymm (length_memString mem _ 100) hfull
    have hlong := h.linkRunsOn (n := 4294967196) (by decide)
    refine iff_of_false ?_ fun hc => absurd hc.1 (Nat.not_lt.mpr hfull)
    rw [memCStr_eq, memString_full 4294967196 hlen, ← linknameField, Nat.add_assoc]
    exact targetPath_runOn_ne hlen hlong

/-- The loader goes by the path and the target that it has taken. -/
theorem loadEntry_eq (c : Caller) (stop : Nat) (v : Vfs) : loadEntry mem c stop v addr =
    loadAs mem c stop v addr (takenPath mem addr) (some (takenTarget mem addr)) := rfl

/-- So what is decoded in full is loaded under the path that the header spells. -/
theorem loadEntry_of_decoded (h : DecodedInFull mem addr) (c : Caller) (stop : Nat) (v : Vfs) :
    loadEntry mem c stop v addr = loadAs mem c stop v addr (headerPath mem addr) (headerTarget mem addr) := by
  rw [loadEntry_eq, h.1]
  unfold loadAs
  by_cases hlink : isLinkType (headerType mem addr) = true
  · rw [h.2 hlink]
  · simp only [hlink, if_false, Bool.false_eq_true]

end Headers

/-! ## Two headers -/

/-- A field of `n` bytes. -/
def padTo (n : Nat) (s : CStr) : List UInt8 := s ++ List.replicate (n - s.length) 0

/-- The header of a link to `link`, or of an empty file if that is empty. -/
def ustarBytes (name front sum link : CStr) : List UInt8 :=
  padTo 100 name ++ padTo 8 (str "0000644") ++ padTo 8 (str "0000000") ++ padTo 8 (str "0000000") ++
    padTo 12 (str "00000000000") ++ padTo 12 (str "00000000000") ++ (sum ++ [0, 32]) ++
    (if link = [] then str "0" else str "2") ++ padTo 100 link ++ padTo 6 (str "ustar") ++ str "00" ++ padTo 80 [] ++
    padTo 155 front ++ padTo 12 []

def ustarMem (name front sum link : CStr) (a : Nat) : UInt8 := (ustarBytes name front sum link).getD a 0

theorem holdsAt_ustarMem (name front sum link : CStr) :
    HoldsAt (ustarMem name front sum link) 0 (ustarBytes name front sum link) := by
  intro i hi
  rw [ustarMem, Nat.zero_add, List.getD_eq_getElem?_getD, List.getElem?_eq_getElem hi, Option.getD_some]

/-- The checksum of a header whose bytes are known. -/
theorem headerSum_eq {mem : Nat → UInt8} {addr : Nat} {bytes : List UInt8} (h : HoldsAt mem addr bytes)
    (hlen : bytes.length = 512) (hfits : addr + 512 ≤ 4294967296) : headerSum mem addr =
      ((bytes.take tarChksum ++ List.replicate 8 32 ++ bytes.drop tarTypeflag).map UInt8.toNat).sum := by
  have hback : HoldsAt mem (addr + tarTypeflag) (bytes.drop tarTypeflag) := by
    rw [← List.take_append_drop tarTypeflag bytes] at h
    have hright := (holdsAt_append.mp h).2
    rwa [List.length_take, hlen] at hright
  have hdrop : (bytes.drop tarTypeflag).length = 512 - tarTypeflag := by rw [List.length_drop, hlen]
  rw [headerSum, memBytes_holdsAt h (by omega) (by rw [hlen]; decide),
    memBytes_holdsAt hback (by rw [hdrop, tarTypeflag]; omega) (Nat.le_of_eq hdrop.symm), ← hdrop,
    List.take_length]

/-- `./bin/sh`, a link to `/bin/busybox`, without a prefix. -/
def linkMem : Nat → UInt8 := ustarMem (str "./bin/sh") [] (str "011442") (str "/bin/busybox")

theorem ustarHeader_link : UstarHeader linkMem 0 where
  fits := by decide
  name := by decide
  numbers := by decide
  chksum_end := by decide
  chksum := by
    rw [linkMem, headerSum_eq (holdsAt_ustarMem _ _ _ _) (by decide +kernel) (by decide)]
    decide +kernel
  magic := by decide
  version := by decide

theorem link_decoded : UstarHeader linkMem 0 ∧ isLinkType (headerType linkMem 0) = true ∧ DecodedInFull linkMem 0 := by
  have hname : nameField linkMem 0 = str "./bin/sh" := by decide +kernel
  have hprefix : prefixField linkMem 0 = [] := by decide +kernel
  have htarget : linknameField linkMem 0 = str "/bin/busybox" := by decide +kernel
  have hlink : isLinkType (headerType linkMem 0) = true := by decide +kernel
  refine ⟨ustarHeader_link, hlink, (decodedInFull_iff ustarHeader_link).mpr ⟨⟨?_, .inl hprefix⟩, fun _ => ?_⟩⟩
  · rw [hname]
    decide
  · rw [htarget]
    exact ⟨by decide, by decide, by decide, by decide⟩

/-- `sh`, with the prefix `usr/bin`. -/
theorem ustarHeader_prefixed : UstarHeader (ustarMem (str "sh") (str "usr/bin") (str "007572") []) 0 where
  fits := by decide
  name := by decide
  numbers := by decide
  chksum_end := by decide
  chksum := by
    rw [headerSum_eq (holdsAt_ustarMem _ _ _ _) (by decide +kernel) (by decide)]
    decide +kernel
  magic := by decide
  version := by decide

/-- The loader stores it under `/sh`. -/
theorem prefix_not_decoded : ¬∀ mem addr, UstarHeader mem addr → DecodedInFull mem addr := by
  intro hall
  have hadds := (ustarHeader_prefixed.takenPath_iff.mp (hall _ _ ustarHeader_prefixed).1).2
  have hname : nameField (ustarMem (str "sh") (str "usr/bin") (str "007572") []) 0 = str "sh" := by
    decide +kernel
  have hprefix : prefixField (ustarMem (str "sh") (str "usr/bin") (str "007572") []) 0 = str "usr/bin" := by
    decide +kernel
  rw [hname, hprefix] at hadds
  rcases hadds with hempty | ⟨hdropped, _⟩
  · exact absurd hempty (by decide)
  · exact absurd hdropped (by decide)

end LiteBSD
