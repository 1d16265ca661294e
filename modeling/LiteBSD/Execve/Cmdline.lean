/-
# `LiteBSD.Execve.Cmdline` — what `/proc/<pid>/cmdline` shows of a vector

`execve` joins the strings of `argv`, each with its NUL, and stores no length.
The reader takes words off the array up to an empty one, so it shows those in
front of the first empty argument (`genCmdline_eq`): the whole vector if no
argument is empty, and otherwise not.
-/
import LiteBSD.Execve.Start
import LiteBSD.Vfs.Sysinfo

namespace LiteBSD.Execve

open Lib

/-! ## Joined strings -/

/-- The strings one behind the other, each with its NUL. -/
def joined (strs : List CStr) : List UInt8 := (strs.map withNul).flatten

/-- The strings that bytes are joined from. -/
def splitNuls (bytes : List UInt8) : List CStr := (bytes.splitOn 0).dropLast

section Joined

variable {str : CStr} {strs : List CStr}

theorem joined_cons (str : CStr) (strs : List CStr) : joined (str :: strs) = withNul str ++ joined strs := rfl

theorem joined_append (xs ys : List CStr) : joined (xs ++ ys) = joined xs ++ joined ys := by
  rw [joined, List.map_append, List.flatten_append]
  rfl

theorem length_joined (str : CStr) (strs : List CStr) :
    (joined (str :: strs)).length = str.length + 1 + (joined strs).length := by
  rw [joined_cons, withNul, List.length_append, List.length_append]
  rfl

theorem length_le_joined (strs : List CStr) : strs.length ≤ (joined strs).length := by
  induction strs with
  | nil => exact Nat.le_refl _
  | cons str strs ih =>
      rw [length_joined, List.length_cons]
      omega

/-- Splitting undoes joining. -/
theorem splitNuls_joined (h : ∀ str ∈ strs, (0 : UInt8) ∉ str) : splitNuls (joined strs) = strs := by
  have hsplit : (joined strs).splitOn 0 = strs ++ [[]] := by
    induction strs with
    | nil => rfl
    | cons str strs ih =>
        rw [joined_cons, withNul, List.append_assoc, List.singleton_append, List.splitOn_append_cons_self_of_not_mem (h str List.mem_cons_self),
          ih fun s hs => h s (List.mem_cons_of_mem str hs)]
        rfl
  rw [splitNuls, hsplit, List.dropLast_concat]

/-- The strings in front of the first empty one. -/
def leading (strs : List CStr) : List CStr := strs.takeWhile fun str => str ≠ []

theorem leading_eq_self : leading strs = strs ↔ [] ∉ strs := by
  rw [leading, List.takeWhile_eq_self_iff]
  constructor
  · exact fun h hmem => absurd rfl (of_decide_eq_true (h [] hmem))
  · exact fun h str hstr => decide_eq_true fun he => h (he ▸ hstr)

theorem joined_leading (strs : List CStr) :
    joined strs = joined (leading strs) ++ joined (strs.dropWhile fun str => str ≠ []) := by
  rw [← joined_append, leading, List.takeWhile_append_dropWhile]

/-- Behind an empty string something is missing. -/
theorem not_mem_of_joined {n : Nat} (h : (joined (leading strs)).take n = joined strs) : [] ∉ strs := by
  have hlen : (joined strs).length ≤ (joined (leading strs)).length := h ▸ List.length_take_le' n _
  have hrest : (strs.dropWhile fun str => str ≠ []).length = 0 := by
    rw [joined_leading strs, List.length_append] at hlen
    have hnone : (joined (strs.dropWhile fun str => str ≠ [])).length ≤ 0 :=
      Nat.le_of_add_le_add_left (hlen.trans_eq (Nat.add_zero _).symm)
    exact Nat.le_zero.mp ((length_le_joined _).trans hnone)
  refine leading_eq_self.mp ?_
  have hall := List.takeWhile_append_dropWhile (p := fun str => decide (str ≠ [])) (l := strs)
  rwa [List.eq_nil_of_length_eq_zero hrest, List.append_nil] at hall

end Joined

/-! ## The reader -/

section Reader

variable {t : TaskInfo} {word : CStr} {strs : List CStr} {room i fuel len cap : Nat}

theorem cmdlineWord_eq (h : HoldsAt t.cmdline i (word ++ [0])) (hword : 0 ∉ word) (hroom : word.length ≤ room) :
    cmdlineWord t room i = word.length := by
  induction word generalizing room i with
  | nil =>
      have hzero : t.cmdline i = 0 := (holdsAt_cons.mp h).1
      cases room with
      | zero => rfl
      | succ room => rw [cmdlineWord, if_pos hzero]; rfl
  | cons c word ih =>
      obtain ⟨hc, hrest⟩ := holdsAt_cons.mp h
      cases room with
      | zero => cases hroom
      | succ room =>
          have hne : t.cmdline i ≠ 0 := fun hz => hword (by rw [← hz, hc]; exact List.mem_cons_self)
          rw [cmdlineWord, if_neg hne, ih hrest (fun hmem => hword (List.mem_cons_of_mem c hmem))
            (Nat.le_of_succ_le_succ hroom)]
          rfl

/-- The loop stops behind the last word that is not empty, or at `cap`. -/
theorem cmdlineLen_eq (h : HoldsAt t.cmdline len (joined strs ++ [0])) (hstrs : ∀ str ∈ strs, (0 : UInt8) ∉ str)
    (hfit : len + (joined strs).length < cmdlineSize) (hfuel : strs.length ≤ fuel) :
    min (cmdlineLen t cap fuel len) cap = min (len + (joined (leading strs)).length) cap := by
  induction strs generalizing fuel len with
  | nil =>
      cases fuel with
      | zero => rfl
      | succ fuel =>
          have hword : cmdlineWord t (cmdlineSize - len) len = 0 := @cmdlineWord_eq t [] _ _ h nofun (Nat.zero_le _)
          have hlt : len < cmdlineSize := Nat.lt_of_le_of_lt (Nat.le_add_right _ _) hfit
          rw [cmdlineLen, if_pos hlt]
          simp only [hword, if_true]
          rfl
  | cons str strs ih =>
      cases fuel with
      | zero => cases hfuel
      | succ fuel =>
          rw [length_joined] at hfit
          rw [joined_cons, List.append_assoc, holdsAt_append] at h
          obtain ⟨hword, hrest⟩ := h
          rw [withNul, List.length_append, List.length_singleton, ← Nat.add_assoc] at hrest
          have hl : cmdlineWord t (cmdlineSize - len) len = str.length :=
            cmdlineWord_eq hword (hstrs str List.mem_cons_self) (by omega)
          rw [cmdlineLen, if_pos (by omega)]
          dsimp only
          rw [hl]
          cases str with
          | nil => rfl
          | cons c str =>
              have hlead : leading ((c :: str) :: strs) = (c :: str) :: leading strs := rfl
              have hne : (c :: str).length ≠ 0 := Nat.succ_ne_zero _
              rw [if_neg hne, hlead, length_joined]
              split
              · omega
              · rw [ih hrest (fun s hs => hstrs s (List.mem_cons_of_mem _ hs)) (by omega)
                  (Nat.le_of_succ_le_succ hfuel)]
                congr 1
                omega

theorem map_range_of_holdsAt {β : Type} {mem : Nat → β} {xs : List β} {n : Nat} (h : HoldsAt mem 0 xs)
    (hn : n ≤ xs.length) : (List.range n).map mem = xs.take n := by
  refine List.ext_getElem? fun i => ?_
  rw [List.getElem?_map]
  rcases Nat.lt_or_ge i n with hlt | hge
  · rw [List.getElem?_range hlt, List.getElem?_take_of_lt hlt, h i (Nat.lt_of_lt_of_le hlt hn), Nat.zero_add]
    rfl
  · rw [List.getElem?_eq_none (by simpa using hge), List.getElem?_eq_none (by simp [hge])]
    rfl

/-- What is shown of an array that strings were joined in. -/
theorem genCmdline_eq (h : HoldsAt t.cmdline 0 (joined strs ++ [0])) (hstrs : ∀ str ∈ strs, (0 : UInt8) ∉ str)
    (hfit : (joined strs).length < cmdlineSize) : genCmdline t cap = (joined (leading strs)).take cap := by
  have hlen : min (cmdlineLen t cap cmdlineSize 0) cap = _ := cmdlineLen_eq h hstrs (by omega)
    (Nat.le_trans (length_le_joined strs) (Nat.le_of_lt hfit))
  rw [Nat.zero_add] at hlen
  rw [joined_leading strs, List.append_assoc, holdsAt_append] at h
  rw [genCmdline, hlen, map_range_of_holdsAt h.1 (Nat.min_le_left _ _), Nat.min_comm,
    ← List.take_eq_take_min]

end Reader

/-! ## The call -/

/-- The vector that the program at `path` starts with: `args`, or what `#!`
lines have made of it. -/
def startedWith (s : State) (path : Nat) (args : List CStr) : List CStr :=
  (followScripts s.caller s.vfs 5 (readPath s path) args).2

theorem noNul_followScripts (caller : Nat → Caller) (v : Vfs) (rounds : Nat) {path : CStr} {args : List CStr}
    (hpath : 0 ∉ path) (hargs : ∀ str ∈ args, (0 : UInt8) ∉ str) :
    ∀ str ∈ (followScripts caller v rounds path args).2, (0 : UInt8) ∉ str := by
  induction rounds generalizing path args with
  | zero => exact hargs
  | succ rounds ih =>
      unfold followScripts
      split
      · exact hargs
      · rename_i hbuf _
        split
        · obtain ⟨hinterp, hoptarg⟩ := parseLine_noNul hbuf
          refine ih hinterp fun str hstr => ?_
          rcases List.mem_append.mp hstr with hstr | hstr
          · rcases mem_frontTexts hstr with rfl | rfl | rfl
            · exact hinterp
            · exact hoptarg
            · exact hpath
          · exact hargs str (List.mem_of_mem_drop hstr)
        · exact hargs

section Call

variable {s s' : State} {t t' : Task} {path argvU envpU : Nat} {args : List CStr} {info : TaskInfo} {cap : Nat}

theorem noNul_of_vector {uvec : Nat} (h : VectorAt s uvec args) : ∀ str ∈ args, (0 : UInt8) ∉ str := by
  unfold VectorAt at h
  split at h
  · subst h
    exact nofun
  · intro str hstr
    obtain ⟨j, hj, rfl⟩ := List.mem_iff_getElem.mp hstr
    exact (h.1 j _ (List.getElem?_eq_getElem hj)).2.1

/-- A program that is no script starts with the vector of the call. -/
theorem startedWith_elf {hbuf : List UInt8} (hhead : fileHead s.vfs (s.caller 4) (readPath s path) = some hbuf)
    (helf : isElf hbuf = true) : startedWith s path args = args := by
  rw [startedWith, followScripts_elf hhead helf]

/-- What `/proc/<pid>/cmdline` shows of a program that has been started. -/
theorem genCmdline_of_execve (hv : Settled s.vfs) (ht : s.task = some t) (hargv : VectorAt s argvU args)
    (he : sysExecveImpl s path argvU envpU = .ret (s', 0)) (ht' : s'.task = some t')
    (hinfo : HoldsAt info.cmdline 0 t'.cmdline) (hfit : (joined (startedWith s path args)).length ≤ 255) :
    genCmdline info cap = (joined (leading (startedWith s path args))).take cap := by
  have hnul := noNul_followScripts s.caller s.vfs 5 (short_readPath s path).2
    (noNul_of_vector hargv)
  rcases sysExecveImpl_spec hv ht he with ⟨hr, -⟩ | ⟨args', envs, hargs', -, ⟨hr, -⟩ | ⟨-, w, stack, snap, hst⟩⟩
  · cases hr
  · cases hr
  · obtain rfl := hargs'.unique hargv
    obtain ⟨n, htask⟩ := hst.task
    obtain rfl := Option.some.inj (ht'.symm.trans htask)
    refine genCmdline_eq ?_ hnul (Nat.lt_succ_of_le hfit)
    have harray : cmdlineOf ((startedWith s path args').map withNul) = joined (startedWith s path args') ++
        0 :: List.replicate (255 - (joined (startedWith s path args')).length) 0 := by
      have htake : (joined (startedWith s path args')).take 255 = joined (startedWith s path args') :=
        List.take_of_length_le hfit
      have hroom : 256 - (joined (startedWith s path args')).length =
          255 - (joined (startedWith s path args')).length + 1 := by omega
      rw [cmdlineOf, ← joined, htake, hroom, List.replicate_succ]
    have hall : HoldsAt info.cmdline 0 (cmdlineOf ((startedWith s path args').map withNul)) := hinfo
    rw [harray, List.append_cons, holdsAt_append] at hall
    exact hall.1

/-- `/proc/<pid>/cmdline` gives the vector back if no argument is empty, and
only then. -/
theorem cmdline_round_trip (hv : Settled s.vfs) (ht : s.task = some t) (hargv : VectorAt s argvU args)
    (he : sysExecveImpl s path argvU envpU = .ret (s', 0)) (ht' : s'.task = some t')
    (hinfo : HoldsAt info.cmdline 0 t'.cmdline) (hfit : (joined (startedWith s path args)).length ≤ 255)
    (hcap : 16 ≤ cap) (hroom : (joined (startedWith s path args)).length ≤ cap) :
    (∀ hbuf, fileHead s.vfs (s.caller 4) (readPath s path) = some hbuf → isElf hbuf = true →
        startedWith s path args = args) ∧
      ((∃ bytes, procGenPidfile info 1 cap = some bytes ∧ bytes = joined (startedWith s path args) ∧
        splitNuls bytes = startedWith s path args) ↔ [] ∉ startedWith s path args) := by
  refine ⟨fun hbuf => startedWith_elf, ?_⟩
  have hnul := noNul_followScripts s.caller s.vfs 5 (short_readPath s path).2
    (noNul_of_vector hargv)
  have hgen : procGenPidfile info 1 cap = some ((joined (leading (startedWith s path args))).take cap) := by
    rw [procGenPidfile, if_neg (Nat.not_lt.mpr hcap), ← genCmdline_of_execve hv ht hargv he ht' hinfo hfit]
  rw [hgen]
  constructor
  · rintro ⟨bytes, hbytes, hjoined, -⟩
    exact not_mem_of_joined ((Option.some.inj hbytes).trans hjoined)
  · intro hne
    rw [leading_eq_self.mpr hne, List.take_of_length_le hroom]
    exact ⟨_, rfl, rfl, splitNuls_joined hnul⟩

end Call

/-! ## Two vectors to try it on -/

/-- What is shown of a task with this `cmdline`. -/
def infoOf (t : Task) : TaskInfo where
  pid := 7
  ppid := 0
  state := 0
  heapStart := 0
  heapBrk := 0
  heapEnd := 0
  cpuTicks := 0
  startTick := 0
  comm := t.comm
  cmdline i := t.cmdline.getD i 0

theorem holdsAt_infoOf (t : Task) : HoldsAt (infoOf t).cmdline 0 t.cmdline := by
  intro i hi
  show t.cmdline[i]? = some (t.cmdline.getD (0 + i) 0)
  rw [Nat.zero_add, List.getD_eq_getElem?_getD, List.getElem?_eq_getElem hi]
  rfl

theorem task_of_success {s s' : State} {t : Task} {path argvU envpU : Nat} (hv : Settled s.vfs) (ht : s.task = some t)
    (he : sysExecveImpl s path argvU envpU = .ret (s', 0)) : ∃ t', s'.task = some t' := by
  rcases sysExecveImpl_spec hv ht he with ⟨hr, -⟩ | ⟨args, envs, -, -, ⟨hr, -⟩ | ⟨-, w, stack, snap, hst⟩⟩
  · cases hr
  · cases hr
  · obtain ⟨n, htask⟩ := hst.task
    exact ⟨_, htask⟩

/-- Two arguments are shown. -/
theorem arguments_are_shown : ∃ s' t',
    sysExecveImpl elfMachine userLoadAddr (userLoadAddr + 4) (userLoadAddr + 16) = .ret (s', 0) ∧
      s'.task = some t' ∧ procGenPidfile (infoOf t') 1 contentMax = some (str "ab" ++ [0] ++ str "cd" ++ [0]) := by
  obtain ⟨s', hs'⟩ := elf_runs.2
  obtain ⟨t', ht'⟩ := task_of_success settled_elfMachine rfl hs'
  have hsame : startedWith elfMachine userLoadAddr [str "ab", str "cd"] = [str "ab", str "cd"] :=
    startedWith_elf elfMachine_head rfl
  obtain ⟨-, hshown⟩ := cmdline_round_trip settled_elfMachine rfl elfMachine_argv hs' ht' (holdsAt_infoOf t')
    (by rw [hsame]; decide) (show 16 ≤ contentMax by decide) (by rw [hsame]; decide)
  obtain ⟨bytes, hbytes, rfl, -⟩ := hshown.mpr (by rw [hsame]; decide)
  rw [hsame] at hbytes
  exact ⟨s', t', hs', ht', hbytes⟩

/-- A machine with the program `/a` and the vector of `a`, an empty string and
`b`. -/
def emptyArgMachine : State :=
  machineOf (withFile (imageOf [127, 69, 76, 70]))
    [47, 97, 0, 0, 20, 0, 0, 8, 22, 0, 0, 8, 23, 0, 0, 8, 0, 0, 0, 0, 97, 0, 0, 98, 0]

theorem emptyArgMachine_vector : VectorAt emptyArgMachine (userLoadAddr + 4) [str "a", [], str "b"] := by
  rw [VectorAt, if_neg (by decide)]
  refine ⟨fun j str hj => ?_, by decide⟩
  have hlt : j < 3 := (List.getElem?_eq_some_iff.mp hj).1
  interval_cases j <;> cases hj <;> exact ⟨by decide, by decide, by decide⟩

theorem emptyArgMachine_head : fileHead emptyArgMachine.vfs rootCaller (readPath emptyArgMachine userLoadAddr) =
    some (imageOf [127, 69, 76, 70]) := by
  decide +kernel

/-- Of these three only `a` is shown. -/
theorem empty_argument_ends_cmdline : ¬∀ (s s' : State) (t t' : Task) (path argvU envpU : Nat) (args : List CStr)
    (info : TaskInfo), Settled s.vfs → s.task = some t → VectorAt s argvU args →
    (∃ hbuf, fileHead s.vfs (s.caller 4) (readPath s path) = some hbuf ∧ isElf hbuf = true) →
    sysExecveImpl s path argvU envpU = .ret (s', 0) → s'.task = some t' → HoldsAt info.cmdline 0 t'.cmdline →
    (joined args).length ≤ 255 →
    ∃ bytes, procGenPidfile info 1 contentMax = some bytes ∧ bytes = joined args ∧ splitNuls bytes = args := by
  intro hall
  obtain ⟨s', hs'⟩ : ∃ s', sysExecveImpl emptyArgMachine userLoadAddr (userLoadAddr + 4) 0 = .ret (s', 0) :=
    exists_of_returned (by decide +kernel)
  have hv : Settled emptyArgMachine.vfs := @settled_withFile (imageOf [127, 69, 76, 70])
  obtain ⟨t', ht'⟩ := task_of_success hv rfl hs'
  have hsame : startedWith emptyArgMachine userLoadAddr [str "a", [], str "b"] = [str "a", [], str "b"] :=
    startedWith_elf emptyArgMachine_head rfl
  obtain ⟨bytes, hbytes, hjoined, -⟩ := hall emptyArgMachine s' _ t' userLoadAddr (userLoadAddr + 4) 0 _ (infoOf t') hv
    rfl emptyArgMachine_vector ⟨_, emptyArgMachine_head, rfl⟩ hs' ht'
    (holdsAt_infoOf t') (by decide)
  rw [procGenPidfile, if_neg (by decide)] at hbytes
  have hshown : genCmdline (infoOf t') contentMax = bytes := Option.some.inj hbytes
  rw [genCmdline_of_execve hv rfl emptyArgMachine_vector hs' ht' (holdsAt_infoOf t') (by rw [hsame]; decide), hsame,
    hjoined] at hshown
  exact not_mem_of_joined hshown (by decide)

end LiteBSD.Execve
