/-
# `LiteBSD.Vfs.Listing` — what `getdents` lists and what `lstat` finds

`vfs_getdents` and `synth_getdents` list a directory, `vfs_lstat` looks one
name up.  A listing ought to hold exactly the names that can be looked up
(`ListingAgrees`).

There are names for which this fails in nearly all directories.  63 bytes and
`..` behind them are one name to the caller, but two components to
`vfs_resolve_path`, which takes at most 63 bytes for one: the name leads back
to the directory.  What is left are the directories whose path has no room
for a name (`listing_crowded_iff`).  The names that are one component are left
to `LiteBSD.Vfs.Agreement`.
-/
import LiteBSD.Lib.Records
import LiteBSD.Vfs.Inodes
import LiteBSD.Vfs.Tree
import LiteBSD.Vfs.Walk
import Mathlib.Data.Finset.Card

namespace LiteBSD

open Lib

/-- A record of a listing. -/
structure Dirent where
  ino : Nat
  name : CStr
deriving DecidableEq, Repr

/-- `4 + 4 + name_len + 1` -/
def Dirent.reclen (d : Dirent) : Nat := 4 + 4 + d.name.length + 1

/-- The buffer of the caller: how far it is filled, and with what. -/
structure DirBuf where
  written : Nat
  records : List Dirent
deriving DecidableEq, Repr

/-- `synth_emit`; `vfs_getdents` makes the same test before each record. -/
def synthEmit (bufsize : Nat) (out : DirBuf) (d : Dirent) : DirBuf :=
  if u32 (out.written + d.reclen) > bufsize then out
  else ⟨u32 (out.written + d.reclen), out.records ++ [d]⟩

def emitAll (bufsize : Nat) (records : List Dirent) : DirBuf :=
  records.foldl (synthEmit bufsize) ⟨0, []⟩

/-- What `synth_getdents` emits for a directory; the pids are those of the
ring, from its head on. -/
def synthRecords (pids : List Nat) : SynthId → List Dirent
  | .procDir =>
      [⟨synthIno .procDir, [dot]⟩, ⟨1, [dot, dot]⟩] ++
        (procFiles.zipIdx.map fun (name, i) => ⟨100 + i, name⟩) ++
        pids.map fun pid => ⟨u32 (2000 + pid), synthPidToDec pid⟩
  | .pidDir pid =>
      [⟨u32 (2000 + pid), [dot]⟩, ⟨1, [dot, dot]⟩] ++
        pidFiles.zipIdx.map fun (name, i) => ⟨u32 (100000 + pid * 8 + i), name⟩
  | .sysDir slot =>
      [⟨6000 + slot, [dot]⟩, ⟨1, [dot, dot]⟩] ++
        (match slot with
        | 0 => [⟨6001, str "devices"⟩]
        | 1 => [⟨6002, str "virtual"⟩]
        | 2 => [⟨6003, str "dmi"⟩]
        | 3 => [⟨6004, str "id"⟩]
        | 4 => sysFiles.zipIdx.map fun (name, i) => ⟨5000 + i, name⟩
        | _ => [])
  | .pidFile _ _ | .proFile _ | .sysFile _ => []

/-- What follows a directory in a path, when it is one name. -/
def directName (name : CStr) : Option CStr := if slash ∉ name ∧ name ≠ [] then some name else none

/-- The name of the node at `path` in the directory `dir`, when it is directly
in it. -/
def childName (dir path : CStr) : Option CStr :=
  if dir = [slash] then
    if path.head? = some slash ∧ path.length > 1 then directName (path.drop 1) else none
  else if isBelow dir path then directName (path.drop (dir.length + 1))
  else none

/-- The loop of `vfs_getdents` over the list. -/
def childRecords (v : Vfs) (dir : CStr) : List Nat → Exec (List Dirent)
  | [] => .ret []
  | a :: nodes => do
      let n ← v.load a
      let rest ← childRecords v dir nodes
      .ret (((childName dir n.path).map fun name => ⟨n.ino, name⟩).toList ++ rest)

/-- The path `vfs_getdents` takes for `..`. -/
def parentPath (dir : CStr) : CStr :=
  let pi := trimName dir dir.length
  let pi := if pi > 1 then pi - 1 else pi
  if pi = 0 then [slash] else dir.take pi

def parentIno (v : Vfs) (dir : CStr) : Exec Nat :=
  match findNode v (parentPath dir) with
  | none => .ret 1
  | some p => do
      let n ← v.load p
      .ret n.ino

/-- The records of a directory, in their order; `none` where `vfs_getdents`
returns `-1`. -/
def dirRecords (v : Vfs) (c : Caller) (path : CStr) : Exec (Option (List Dirent)) :=
  let dirPath := c.resolve path
  match synthLookup c.pids dirPath with
  | some sid => .ret (if sid.isDir then some (synthRecords c.pids sid) else none)
  | none =>
      match findNode v dirPath with
      | none => .ret none
      | some a => do
          let n ← v.load a
          if !n.dirBit then .ret none
          else do
            let dir := if dirPath.length > 1 ∧ dirPath[dirPath.length - 1]? = some slash then
              dirPath.dropLast else dirPath
            let up ← parentIno v dir
            let children ← childRecords v dir v.nodes
            .ret (some (⟨n.ino, [dot]⟩ :: ⟨up, [dot, dot]⟩ :: children))

def vfsGetdents (v : Vfs) (c : Caller) (path : CStr) (bufsize : Nat) : Exec (Option DirBuf) :=
  if bufsize = 0 then .ret none
  else do
    let records ← dirRecords v c path
    .ret (records.map (emitAll bufsize))

/-! ## Agreement -/

/-- The path of a name in a directory. -/
def joinName (dir name : CStr) : CStr := if dir = [slash] then slash :: name else dir ++ slash :: name

/-- What may be a name in a directory. -/
def IsName (name : CStr) : Prop := slash ∉ name ∧ name ≠ [] ∧ name ≠ [dot] ∧ name ≠ [dot, dot]

instance (name : CStr) : Decidable (IsName name) :=
  inferInstanceAs (Decidable (_ ∧ _ ∧ _ ∧ _))

/-- The names of a listing, but for `.` and `..`. -/
def DirBuf.names (out : DirBuf) : List CStr :=
  (out.records.map Dirent.name).filter fun name => name ≠ [dot] ∧ name ≠ [dot, dot]

/-- The bytes a listing takes. -/
def recordsLen (records : List Dirent) : Nat := (records.map Dirent.reclen).sum

/-- The names in the listing `out` of `dir` are those that can be looked up in
it, each once. -/
def ListingAgrees (v : Vfs) (c : Caller) (dir : CStr) (out : DirBuf) : Prop :=
  out.names.Nodup ∧ ∀ name, name ∈ out.names ↔
    IsName name ∧ ∃ st, vfsLstat v c (joinName dir name) = .ret (some st)

/-- There is nothing at the path. -/
def Absent (v : Vfs) (c : Caller) (path : CStr) : Prop :=
  synthLookup c.pids path = none ∧ findNode v path = none

/-- The path of a directory in which no name fits: there is room for a slash
only.  What a name in it leads to instead, that path with the slash or the
directory above, does not exist. -/
def Crowded (v : Vfs) (c : Caller) (path : CStr) : Prop :=
  path.length = 254 ∧ Absent v c (path ++ [slash]) ∧ Absent v c (popComponent path)

section Emit

variable {bufsize : Nat} {records : List Dirent}

theorem foldl_synthEmit {used : Nat} {before : List Dirent} (h : used + recordsLen records < 4294967296) :
    records.foldl (synthEmit bufsize) ⟨used, before⟩ =
      ⟨used + recordsLen (keepFitting Dirent.reclen bufsize used records),
        before ++ keepFitting Dirent.reclen bufsize used records⟩ := by
  induction records generalizing used before with
  | nil => rw [List.foldl_nil, keepFitting, List.append_nil, recordsLen, List.map_nil, List.sum_nil, Nat.add_zero]
  | cons d records ih =>
      have hlen : ∀ rs, recordsLen (d :: rs) = d.reclen + recordsLen rs := fun rs => List.sum_cons
      rw [hlen] at h
      have hword : u32 (used + d.reclen) = used + d.reclen := u32_of_lt (by omega)
      rw [List.foldl_cons, keepFitting]
      by_cases hfits : used + d.reclen ≤ bufsize
      · have hemit : synthEmit bufsize ⟨used, before⟩ d = ⟨used + d.reclen, before ++ [d]⟩ := by
          rw [synthEmit, hword, if_neg (Nat.not_lt.mpr hfits)]
        rw [hemit, ih (by omega), if_pos hfits, hlen, List.append_assoc, List.singleton_append, Nat.add_assoc]
      · have hemit : synthEmit bufsize ⟨used, before⟩ d = ⟨used, before⟩ := by
          rw [synthEmit, hword, if_pos (Nat.not_le.mp hfits)]
        rw [hemit, ih (by omega), if_neg hfits]

/-- The records that fit are emitted. -/
theorem emitAll_eq (h : recordsLen records < 4294967296) :
    emitAll bufsize records = ⟨recordsLen (keepFitting Dirent.reclen bufsize 0 records),
      keepFitting Dirent.reclen bufsize 0 records⟩ := by
  rw [emitAll, foldl_synthEmit (by rwa [Nat.zero_add]), Nat.zero_add, List.nil_append]

/-- With room for everything, nothing is left out. -/
theorem emitAll_large (hroom : recordsLen records ≤ bufsize) (hmax : bufsize < 4294967296) :
    (emitAll bufsize records).records = records := by
  rw [emitAll_eq (Nat.lt_of_le_of_lt hroom hmax)]
  exact keepFitting_all (by rwa [Nat.zero_add])

end Emit

/-! ## Names that lead back -/

section Back

variable {temp path name comp : CStr}

/-- A round at the start of what has no slash. -/
theorem resolveLoop_piece (fuel : Nat) (temp : CStr) (hne : path ≠ []) (hpath : slash ∉ path) :
    resolveLoop (fuel + 1) temp path =
      resolveLoop fuel (walkStep temp (path.take componentMax)) (path.drop componentMax) := by
  have hdrop : path.dropWhile (· = slash) = path := by
    obtain ⟨b, s, rfl⟩ := List.exists_cons_of_ne_nil hne
    refine List.dropWhile_cons_of_neg ?_
    simpa using fun he : b = slash => hpath (he ▸ List.mem_cons_self)
  have hcomp : firstComp path = path.take componentMax := by
    rw [firstComp, List.takeWhile_eq_self_iff.mpr fun b hb => ?_]
    simpa using fun he : b = slash => hpath (he ▸ hb)
  have hrest : path.drop (firstComp path).length = path.drop componentMax := by
    rw [hcomp, List.length_take]
    rcases Nat.le_total componentMax path.length with hle | hle
    · rw [Nat.min_eq_left hle]
    · rw [Nat.min_eq_right hle, List.drop_length, List.drop_of_length_le hle]
  rw [resolveLoop_step _ _ (hdrop.symm ▸ hne), hdrop, hrest, hcomp]

/-- A name that was put on the path is taken away again. -/
theorem Walked.pop_push (h : Walked temp) (hlen : temp.length < 254) (hne : comp ≠ [])
    (hcomp : slash ∉ comp) : popComponent (pushComponent temp comp) = temp := by
  have hback : ∀ p : CStr, p.length ≤ temp.length → (if p = [] then [slash] else p) = temp →
      popComponent (p ++ slash :: comp.take (254 - p.length)) = temp := by
    intro p hp hpt
    have hname : comp.take (254 - p.length) ≠ [] := by
      rw [Ne, List.take_eq_nil_iff, not_or]
      exact ⟨by omega, hne⟩
    have hpop := popComponent_name (p := p) hname (fun hs => hcomp (List.mem_of_mem_take hs)) (.inl rfl)
    rw [List.append_nil] at hpop
    rw [hpop, hpt]
  rw [h.push_room hlen]
  split
  · rename_i hroot
    exact hback [] (Nat.zero_le _) hroot.symm
  · exact hback temp (Nat.le_refl _) (if_neg h.ne_nil)

/-- The slash at the end of a full buffer goes with the last name. -/
theorem Walked.pop_slash (h : Walked temp) (hlen : temp.length = 254) :
    popComponent (temp ++ [slash]) = popComponent temp := by
  cases h with
  | root => cases hlen
  | names hne hname _ htail _ =>
      rcases htail with rfl | ⟨rfl, hfull⟩
      · rw [popComponent_name hne hname (.inl rfl), List.append_nil,
          popComponent_name hne hname (.inr rfl)]
      · rw [List.length_append, hfull] at hlen
        cases hlen

/-- With a full buffer, a path without a slash leads nowhere or one step
back. -/
theorem resolveLoop_full (hlen : temp.length = 255) (hpath : slash ∉ path) (fuel : Nat) :
    resolveLoop fuel temp path = temp ∨ resolveLoop fuel temp path = popComponent temp := by
  induction fuel generalizing path with
  | zero => exact .inl rfl
  | succ fuel ih =>
      by_cases hne : path = []
      · subst hne
        exact .inl rfl
      have hrest : slash ∉ path.drop componentMax := fun hs => hpath (List.mem_of_mem_drop hs)
      rw [resolveLoop_piece fuel temp hne hpath, walkStep]
      split
      · exact ih hrest
      split
      · rename_i hdots
        -- such a component is the last
        have hlast : path.drop componentMax = [] := by
          have htake := congrArg List.length hdots
          rw [List.length_take, componentMax] at htake
          refine List.drop_of_length_le ?_
          change min 63 path.length = 2 at htake
          show path.length ≤ 63
          omega
        rw [hlast, resolveLoop_nil]
        exact .inr rfl
      · rw [pushComponent_full hlen]
        exact ih hrest

/-- Where there is room for a slash only, no name leads anywhere else than to
the path with the slash, or one step back. -/
theorem Walked.crowded (h : Walked temp) (hlen : temp.length = 254) (hname : IsName name) (fuel : Nat) :
    resolveLoop (fuel + 1) temp name = temp ++ [slash] ∨
      resolveLoop (fuel + 1) temp name = popComponent temp := by
  obtain ⟨hslash, hne, hdot, hdots⟩ := hname
  have hcomp : ∀ comp : CStr, comp.length ≤ 2 → name ≠ comp → name.take componentMax ≠ comp := by
    intro comp hshort hno he
    have hl := congrArg List.length he
    rw [List.length_take] at hl
    change min 63 name.length = comp.length at hl
    have hle : name.length ≤ componentMax := by
      show name.length ≤ 63
      omega
    rw [List.take_of_length_le hle] at he
    exact hno he
  have hfull : (temp ++ [slash]).length = 255 := by rw [List.length_append, hlen, List.length_singleton]
  rw [resolveLoop_piece fuel temp hne hslash, walkStep, if_neg (hcomp _ (by decide) hdot),
    if_neg (hcomp _ (by decide) hdots), h.push_last hlen, ← h.pop_slash hlen]
  exact resolveLoop_full hfull (fun hs => hslash (List.mem_of_mem_drop hs)) fuel

/-- A name of 63 bytes for each number. -/
def longName (i : Nat) : CStr := (List.range componentMax).map fun j => if i.testBit j then 49 else 48

theorem longName_length (i : Nat) : (longName i).length = componentMax := by
  rw [longName, List.length_map, List.length_range]

theorem mem_longName {i : Nat} {b : UInt8} (hb : b ∈ longName i) : b = 48 ∨ b = 49 := by
  obtain ⟨j, _, rfl⟩ := List.mem_map.mp hb
  split
  · exact .inr rfl
  · exact .inl rfl

theorem longName_ne_nil (i : Nat) : longName i ≠ [] := by
  rw [← List.length_pos_iff, longName_length]
  decide

theorem longName_ne {i : Nat} {s : CStr} (hs : dot ∈ s) : longName i ≠ s := by
  rintro rfl
  rcases mem_longName hs with he | he <;> exact absurd he (by decide)

theorem slash_notMem_longName (i : Nat) : slash ∉ longName i := by
  intro hs
  rcases mem_longName hs with he | he <;> exact absurd he (by decide)

theorem longName_inj {i j : Nat} (hi : i < 4294967296) (hj : j < 4294967296)
    (h : longName i = longName j) : i = j := by
  refine Nat.eq_of_testBit_eq fun k => ?_
  rcases Nat.lt_or_ge k componentMax with hk | hk
  · have hat := List.map_inj_left.mp h k (List.mem_range.mpr hk)
    cases hik : i.testBit k <;> cases hjk : j.testBit k <;> simp [hik, hjk] at hat ⊢
  · have hbig : ∀ {x : Nat}, x < 4294967296 → x.testBit k = false := fun hx =>
      Nat.testBit_lt_two_pow (Nat.lt_of_lt_of_le hx
        (Nat.le_trans (show 4294967296 ≤ 2 ^ 63 by decide) (Nat.pow_le_pow_right (by decide) hk)))
    rw [hbig hi, hbig hj]

/-- A list has not all of so many different things. -/
theorem exists_notMem {names : List CStr} {f : Nat → CStr} (hlen : names.length < 4294967296)
    (hinj : ∀ i < 4294967296, ∀ j < 4294967296, f i = f j → i = j) : ∃ i, f i ∉ names := by
  by_contra hall
  rw [not_exists] at hall
  simp only [not_not] at hall
  have hcard := Finset.card_le_card_of_injOn (s := Finset.range 4294967296) (t := names.toFinset) f
    (fun i _ => by simpa using hall i)
    (fun i hi j hj he => hinj i (by simpa using hi) j (by simpa using hj) he)
  rw [Finset.card_range] at hcard
  exact absurd (Nat.le_trans hcard (List.toFinset_card_le names)) (Nat.not_le.mpr hlen)

/-- A long name. -/
theorem resolve_longName (fuel i : Nat) (temp : CStr) :
    resolveLoop (fuel + 1) temp (longName i) = pushComponent temp (longName i) := by
  have hdot := longName_ne (i := i) (s := [dot]) List.mem_cons_self
  have hdots := longName_ne (i := i) (s := [dot, dot]) List.mem_cons_self
  rw [resolveLoop_piece fuel temp (longName_ne_nil i) (slash_notMem_longName i),
    List.take_of_length_le (Nat.le_of_eq (longName_length i)),
    List.drop_of_length_le (Nat.le_of_eq (longName_length i)), resolveLoop_nil, walkStep,
    if_neg hdot, if_neg hdots]

/-- A long name with two dots behind it. -/
theorem resolve_longName_dots (fuel i : Nat) (temp : CStr) :
    resolveLoop (fuel + 2) temp (longName i ++ [dot, dot]) =
      popComponent (pushComponent temp (longName i)) := by
  have hdot := longName_ne (i := i) (s := [dot]) List.mem_cons_self
  have hdots := longName_ne (i := i) (s := [dot, dot]) List.mem_cons_self
  have hlen : componentMax = (longName i).length := (longName_length i).symm
  have hslash : slash ∉ longName i ++ [dot, dot] := by
    rw [List.mem_append, not_or]
    exact ⟨slash_notMem_longName i, by decide⟩
  rw [resolveLoop_piece (fuel + 1) temp (List.append_ne_nil_of_left_ne_nil (longName_ne_nil i) _) hslash,
    hlen, List.take_left, List.drop_left, walkStep, if_neg hdot, if_neg hdots,
    resolveLoop_piece fuel _ (List.cons_ne_nil _ _) (by decide)]
  exact resolveLoop_nil fuel _

theorem isName_longName (i : Nat) : IsName (longName i) :=
  ⟨slash_notMem_longName i, longName_ne_nil i, longName_ne List.mem_cons_self,
    longName_ne List.mem_cons_self⟩

theorem isName_longName_dots (i : Nat) : IsName (longName i ++ [dot, dot]) := by
  have hlen : (longName i ++ [dot, dot]).length = 65 := by
    rw [List.length_append, longName_length]
    rfl
  have hne : ∀ s : CStr, s.length < 65 → longName i ++ [dot, dot] ≠ s := by
    rintro s hs rfl
    omega
  refine ⟨?_, hne _ (by decide), hne _ (by decide), hne _ (by decide)⟩
  rw [List.mem_append, not_or]
  exact ⟨slash_notMem_longName i, by decide⟩

end Back

/-! ## When they agree -/

section Agree

variable {v : Vfs} {c : Caller} {dir : CStr} {records : List Dirent} {bufsize : Nat} {out : DirBuf}

/-- Where the walk over a name in a directory starts. -/
theorem resolve_joinName (hhead : dir.head? = some slash) (name : CStr) :
    c.resolve (joinName dir name) = resolveLoop (name.length + 1) (c.resolve dir) name := by
  by_cases hroot : dir = [slash]
  · subst hroot
    have habs : c.resolve (slash :: name) = resolveLoop (name.length + 1) [slash] name :=
      (resolve_absolute rfl _).1
    rw [joinName, if_pos rfl, habs]
    rfl
  · rw [joinName, if_neg hroot]
    exact resolve_joined hhead _

/-- A lookup finds what there is. -/
theorem lookup_iff (ht : NodeTable v) (hr : c.Renders) (path : CStr) :
    (∃ st, vfsLstat v c path = .ret (some st)) ↔ ¬Absent v c (c.resolve path) := by
  constructor
  · rintro ⟨st, hst⟩ ⟨hs, hf⟩
    simp only [vfsLstat, hs, hf] at hst
    cases hst
  · intro hno
    obtain ⟨o, ho⟩ : ∃ o, objectAt v c path = some o := by
      cases hs : synthLookup c.pids (c.resolve path) with
      | some sid => exact ⟨.entry sid, by simp only [objectAt, hs]⟩
      | none =>
          cases hf : findNode v (c.resolve path) with
          | none => exact absurd ⟨hs, hf⟩ hno
          | some a => exact ⟨.node a, by simp only [objectAt, hs, hf, Option.map_some]⟩
    obtain ⟨st, hst, _⟩ := vfsLstat_object ht hr ho
    exact ⟨st, hst⟩

/-- With room for the whole listing, that is what comes out. -/
theorem records_of_getdents (hdir : dirRecords v c dir = .ret (some records)) (hroom : recordsLen records ≤ bufsize)
    (hmax : bufsize < 4294967296) (hout : vfsGetdents v c dir bufsize = .ret (some out)) : out.records = records := by
  unfold vfsGetdents at hout
  split at hout
  · cases hout
  · rw [hdir] at hout
    cases hout
    exact emitAll_large hroom hmax

/-- What has a listing exists. -/
theorem exists_of_listed (hdir : dirRecords v c dir = .ret (some records)) :
    ¬Absent v c (c.resolve dir) := by
  rintro ⟨hs, hf⟩
  simp only [dirRecords, hs, hf] at hdir
  cases hdir

/-- There are no more names than bytes. -/
theorem length_names (out : DirBuf) : out.names.length ≤ recordsLen out.records := by
  have hle : out.names.length ≤ out.records.length :=
    Nat.le_trans (List.length_filter_le _ _) (Nat.le_of_eq (List.length_map _))
  refine Nat.le_trans hle ?_
  generalize out.records = records
  induction records with
  | nil => exact Nat.le_refl _
  | cons d records ih =>
      have hlen : recordsLen (d :: records) = d.reclen + recordsLen records := List.sum_cons
      rw [hlen, List.length_cons, Dirent.reclen]
      omega

/-- The paths of the entries are short. -/
theorem length_entry {pids : List Nat} {path : CStr} {sid : SynthId}
    (h : synthLookup pids path = some sid) : path.length < 64 := by
  have hproc : (str "/proc/").length = 6 := by decide
  cases synthLookup_iff.mp h with
  | proc => decide
  | net => decide
  | @proFile slot name hname =>
      have hshort : ∀ name ∈ procFiles, name.length ≤ 9 := by decide
      have := hshort name (List.mem_of_getElem? hname)
      rw [List.length_append]
      omega
  | @pidDir s _ htext _ =>
      have := htext.1
      rw [List.length_append]
      omega
  | @pidFile s name _ slot htext _ hname =>
      have hshort : ∀ name ∈ pidFiles, name.length ≤ 7 := by decide
      have := hshort name (List.mem_of_getElem? hname)
      have := htext.1
      rw [List.length_append, List.length_append, List.length_cons]
      omega
  | sysDir hpath =>
      have hshort : ∀ path ∈ sysDirs, path.length < 64 := by decide
      exact hshort path (List.mem_of_getElem? hpath)
  | @sysFile slot name hname =>
      have hshort : ∀ name ∈ sysFiles, (dmiPrefix ++ name).length < 64 := by decide
      exact hshort name (List.mem_of_getElem? hname)

/-- No path is long enough for a name below one of 254 bytes. -/
theorem childRecords_crowded (hdir : dir.length = 254) {nodes : List Nat}
    (hshort : ∀ a ∈ nodes, ∀ n, v.node a = some n → n.path.length ≤ 255)
    (h : childRecords v dir nodes = .ret records) : records = [] := by
  induction nodes generalizing records with
  | nil =>
      cases h
      rfl
  | cons a nodes ih =>
      obtain ⟨n, hn, h⟩ := Exec.bind_eq_ret.mp h
      obtain ⟨rest, hrest, h⟩ := Exec.bind_eq_ret.mp h
      cases h
      have hlen := hshort a List.mem_cons_self n (Vfs.load_ret hn)
      have hchild : childName dir n.path = none := by
        unfold childName
        split
        · rename_i hroot
          rw [hroot] at hdir
          cases hdir
        split
        · rw [List.drop_of_length_le (by omega)]
          rfl
        · rfl
      rw [hchild, ih (fun b hb => hshort b (List.mem_cons_of_mem _ hb)) hrest]
      rfl

theorem names_crowded (hr : vfsSystem.Reach v) (hw : Walked (c.resolve dir))
    (hlen : (c.resolve dir).length = 254) (hdir : dirRecords v c dir = .ret (some out.records)) :
    out.names = [] := by
  have hs : synthLookup c.pids (c.resolve dir) = none := by
    cases hs : synthLookup c.pids (c.resolve dir) with
    | none => rfl
    | some sid =>
        have := length_entry hs
        omega
  cases hf : findNode v (c.resolve dir) with
  | none => exact absurd ⟨hs, hf⟩ (exists_of_listed hdir)
  | some a =>
      simp only [dirRecords, hs, hf] at hdir
      obtain ⟨n, hn, hdir⟩ := Exec.bind_eq_ret.mp hdir
      split at hdir
      · cases hdir
      have hroot : c.resolve dir ≠ [slash] := by
        intro hroot
        rw [hroot] at hlen
        cases hlen
      have hlast := hw.last hroot (by omega)
      rw [if_neg fun h => hlast h.2] at hdir
      obtain ⟨up, hup, hdir⟩ := Exec.bind_eq_ret.mp hdir
      obtain ⟨children, hchildren, hdir⟩ := Exec.bind_eq_ret.mp hdir
      obtain rfl := childRecords_crowded hlen (ShortPaths.of_reach hr) hchildren
      rw [Exec.ret.injEq, Option.some.injEq] at hdir
      rw [DirBuf.names, ← hdir]
      rfl

end Agree

/-- A listing holds all the names that can be looked up, the long ones with
them, exactly when there is room for no name at all. -/
theorem listing_crowded_iff {v : Vfs} (h : vfsSystem.Reach v) (k : SysInfo) (tasks : List TaskInfo)
    (cwd dir : CStr) (hhead : dir.head? = some slash) {records : List Dirent} {bufsize : Nat}
    {out : DirBuf} (hdir : dirRecords v (kernelCaller k tasks cwd) dir = .ret (some records))
    (hroom : recordsLen records ≤ bufsize) (hmax : bufsize < 4294967296)
    (hout : vfsGetdents v (kernelCaller k tasks cwd) dir bufsize = .ret (some out)) :
    ListingAgrees v (kernelCaller k tasks cwd) dir out ↔
      Crowded v (kernelCaller k tasks cwd) ((kernelCaller k tasks cwd).resolve dir) := by
  have ht : NodeTable v := .of_reach h
  have hr := renders_kernelCaller k tasks cwd
  generalize kernelCaller k tasks cwd = c at hdir hout hr ⊢
  have hw : Walked (c.resolve dir) := (resolve_absolute hhead _).2
  obtain rfl : out.records = records := records_of_getdents hdir hroom hmax hout
  have hnames : out.names.length < 4294967296 :=
    Nat.lt_of_le_of_lt (Nat.le_trans (length_names out) hroom) hmax
  constructor
  · rintro ⟨_, hagree⟩
    -- not so many names are listed
    have hmany : ∀ (f : Nat → CStr) (q : CStr), (∀ i, IsName (f i)) →
        (∀ i < 4294967296, ∀ j < 4294967296, f i = f j → i = j) →
        (∀ i, c.resolve (joinName dir (f i)) = q) → Absent v c q := by
      intro f q hf hinj hq
      by_contra hno
      obtain ⟨i, hi⟩ := exists_notMem hnames hinj
      exact hi ((hagree (f i)).mpr ⟨hf i, (lookup_iff ht hr _).mpr ((hq i).symm ▸ hno)⟩)
    have hdots : ∀ i < 4294967296, ∀ j < 4294967296,
        longName i ++ [dot, dot] = longName j ++ [dot, dot] → i = j :=
      fun i hi j hj he => longName_inj hi hj (List.append_cancel_right he)
    have hpush : ∀ i, c.resolve (joinName dir (longName i)) = pushComponent (c.resolve dir) (longName i) := by
      intro i
      rw [resolve_joinName hhead]
      exact resolve_longName _ i _
    have hpop : ∀ i, c.resolve (joinName dir (longName i ++ [dot, dot])) =
        popComponent (pushComponent (c.resolve dir) (longName i)) := by
      intro i
      rw [resolve_joinName hhead, List.length_append]
      exact resolve_longName_dots _ i _
    have hlen := hw.length
    rcases Nat.lt_trichotomy (c.resolve dir).length 254 with hlt | heq | hgt
    · refine absurd (hmany _ (c.resolve dir) isName_longName_dots hdots fun i => ?_) (exists_of_listed hdir)
      rw [hpop, hw.pop_push hlt (longName_ne_nil i) (slash_notMem_longName i)]
    · refine ⟨heq, ?_, ?_⟩
      · refine hmany _ _ isName_longName (fun i hi j hj => longName_inj hi hj) fun i => ?_
        rw [hpush, hw.push_last heq]
      · refine hmany _ _ isName_longName_dots hdots fun i => ?_
        rw [hpop, hw.push_last heq, hw.pop_slash heq]
    · refine absurd (hmany _ (c.resolve dir) isName_longName (fun i hi j hj => longName_inj hi hj)
        fun i => ?_) (exists_of_listed hdir)
      rw [hpush, pushComponent_full (by omega)]
  · rintro ⟨hlen, habove, hback⟩
    have hnil := names_crowded h hw hlen hdir
    refine ⟨hnil ▸ List.nodup_nil, fun name => ?_⟩
    rw [hnil, lookup_iff ht hr, resolve_joinName hhead]
    refine ⟨(fun hmem => by cases hmem), fun ⟨hname, hno⟩ => ?_⟩
    rcases hw.crowded hlen hname name.length with he | he
    · exact absurd (he ▸ habove) hno
    · exact absurd (he ▸ hback) hno

end LiteBSD
