/-
# `LiteBSD.Vfs.Pids` — which task a name below `/proc` stands for

`synth_lookup` copies the digits of a name into a buffer of sixteen bytes,
`parse_pid` adds them up in a 32-bit word, and `find_task` takes the first
task of the ready queue with that pid.  So a name of digits denotes

    the task with that pid      while the number fits a word
    a task with ANOTHER pid     from 2^32 on: the number is reduced, and
                                `/proc/4294967297` is `/proc/1`
    nothing                     when it has more than fifteen digits

`parsePid_iff` is the reduction, `pid_names_iff` the law with what it costs.
A task is its place on the ready queue, as `out->task` points there.
-/
import LiteBSD.Vfs.Resolve

namespace LiteBSD

/-! ## Decimal texts -/

/-- A text of decimal digits. -/
def DigitText (s : CStr) : Prop := s ≠ [] ∧ ∀ c ∈ s, 48 ≤ c ∧ c ≤ 57

/-- The natural number that a text of digits denotes. -/
def decimalOf (s : CStr) : Nat := s.foldl (fun v c => v * 10 + (c.toNat - 48)) 0

section Digits

variable {s : CStr} {pid : Nat}

theorem u32_mul_add (v d : Nat) : u32 (u32 v * 10 + d) = u32 (v * 10 + d) := by
  unfold u32
  omega

/-- The digits loop is the decimal value, reduced. -/
theorem parseDigits_eq (v : Nat) (hs : ∀ c ∈ s, 48 ≤ c ∧ c ≤ 57) :
    parseDigits (u32 v) s = some (u32 (s.foldl (fun v c => v * 10 + (c.toNat - 48)) v)) := by
  induction s generalizing v with
  | nil => rfl
  | cons b s ih =>
      have hb := hs b List.mem_cons_self
      have hno : ¬(b < 48 ∨ b > 57) :=
        not_or.mpr ⟨UInt8.not_lt.mpr hb.1, UInt8.not_lt.mpr hb.2⟩
      rw [parseDigits, if_neg hno, u32_mul_add, List.foldl_cons]
      exact ih _ fun c hc => hs c (List.mem_cons_of_mem _ hc)

theorem parsePid_iff : parsePid s = some pid ↔ DigitText s ∧ u32 (decimalOf s) = pid := by
  rw [parsePid]
  constructor
  · intro h
    split at h
    · cases h
    · rename_i hne
      have hd := parseDigits_digit h
      have hv : parseDigits 0 s = some (u32 (decimalOf s)) := parseDigits_eq 0 hd
      rw [h] at hv
      exact ⟨⟨hne, hd⟩, (Option.some.inj hv).symm⟩
  · rintro ⟨⟨hne, hd⟩, rfl⟩
    rw [if_neg hne]
    exact parseDigits_eq 0 hd

end Digits

/-! ## The task of a name -/

/-- `find_task`: the place of the first task with this pid. -/
def taskWith (tasks : List TaskInfo) (pid : Nat) : Option Nat := (tasks.map TaskInfo.pid).idxOf? pid

/-- The task that `out->task` is left at, for the kinds that set it. -/
def SynthId.task (tasks : List TaskInfo) : SynthId → Option Nat
  | .pidDir pid | .pidFile pid _ => taskWith tasks pid
  | .procDir | .proFile _ | .sysDir _ | .sysFile _ => none

/-- `/proc/<s>` is the directory of a task, or `/proc/<s>/stat` its file. -/
def NamesTask (tasks : List TaskInfo) (s : CStr) (i : Nat) : Prop :=
  (∃ pid, synthLookup (tasks.map TaskInfo.pid) (str "/proc/" ++ s) = some (.pidDir pid) ∧
    (SynthId.pidDir pid).task tasks = some i) ∨
  ∃ pid, synthLookup (tasks.map TaskInfo.pid) (str "/proc/" ++ (s ++ str "/stat")) = some (.pidFile pid 0) ∧
    (SynthId.pidFile pid 0).task tasks = some i

/-- A number that does not fit a word, in the room there is, and what is left
of it is somebody's pid. -/
def Overflowing (tasks : List TaskInfo) (s : CStr) : Prop :=
  DigitText s ∧ s.length ≤ 15 ∧ 4294967296 ≤ decimalOf s ∧
    u32 (decimalOf s) ∈ tasks.map TaskInfo.pid

section Names

variable {tasks : List TaskInfo} {s : CStr} {i pid : Nat}

theorem synthLookup_pidDir {pids : List Nat} :
    synthLookup pids (str "/proc/" ++ s) = some (.pidDir pid) ↔ PidText s pid ∧ pid ∈ pids := by
  rw [synthLookup_iff]
  constructor
  · intro h
    generalize hpath : str "/proc/" ++ s = path at h
    cases h with
    | pidDir ht hmem =>
        obtain rfl := List.append_cancel_left hpath
        exact ⟨ht, hmem⟩
  · rintro ⟨ht, hmem⟩
    exact .pidDir ht hmem

theorem synthLookup_pidStat {pids : List Nat} :
    synthLookup pids (str "/proc/" ++ (s ++ str "/stat")) = some (.pidFile pid 0) ↔
      PidText s pid ∧ pid ∈ pids := by
  rw [synthLookup_iff]
  constructor
  · intro h
    generalize hpath : str "/proc/" ++ (s ++ str "/stat") = path at h
    cases h with
    | pidFile ht hmem hname =>
        cases hname
        have hrest := List.append_cancel_left hpath
        obtain rfl := List.append_cancel_right hrest
        exact ⟨ht, hmem⟩
  · rintro ⟨ht, hmem⟩
    exact .pidFile ht hmem rfl

theorem taskWith_iff : taskWith tasks pid = some i ↔
    (∃ t, tasks[i]? = some t ∧ t.pid = pid) ∧ ∀ j < i, ∀ t, tasks[j]? = some t → t.pid ≠ pid := by
  rw [taskWith, List.idxOf?_eq_some_iff]
  simp only [List.length_map, List.getElem_map]
  constructor
  · rintro ⟨hlt, he, hbefore⟩
    refine ⟨⟨tasks[i], List.getElem?_eq_getElem hlt, he⟩, fun j hj t ht => ?_⟩
    obtain ⟨hjlt, rfl⟩ := List.getElem?_eq_some_iff.mp ht
    exact hbefore j hj
  · rintro ⟨⟨t, ht, he⟩, hbefore⟩
    obtain ⟨hlt, rfl⟩ := List.getElem?_eq_some_iff.mp ht
    exact ⟨hlt, he, fun j hj => hbefore j hj _ (List.getElem?_eq_getElem (Nat.lt_trans hj hlt))⟩

theorem mem_of_taskWith (h : taskWith tasks pid = some i) : pid ∈ tasks.map TaskInfo.pid := by
  obtain ⟨⟨t, ht, rfl⟩, -⟩ := taskWith_iff.mp h
  exact List.mem_map_of_mem (List.mem_of_getElem? ht)

/-- Both ways to name a task come to the same. -/
theorem namesTask_iff : NamesTask tasks s i ↔
    DigitText s ∧ s.length ≤ 15 ∧ taskWith tasks (u32 (decimalOf s)) = some i := by
  have htext : ∀ pid, PidText s pid ↔ DigitText s ∧ s.length ≤ 15 ∧ u32 (decimalOf s) = pid := by
    intro pid
    rw [PidText, parsePid_iff, and_left_comm]
  simp only [NamesTask, synthLookup_pidDir, synthLookup_pidStat, SynthId.task, or_self, htext]
  constructor
  · rintro ⟨pid, ⟨⟨hd, hlen, rfl⟩, -⟩, hi⟩
    exact ⟨hd, hlen, hi⟩
  · rintro ⟨hd, hlen, hi⟩
    exact ⟨_, ⟨⟨hd, hlen, rfl⟩, mem_of_taskWith hi⟩, hi⟩

theorem exists_taskWith (h : pid ∈ tasks.map TaskInfo.pid) : ∃ i, taskWith tasks pid = some i := by
  refine Option.isSome_iff_exists.mp ?_
  rw [Option.isSome_iff_ne_none]
  intro hno
  exact List.idxOf?_eq_none_iff.mp hno h

/-- A name that fits denotes the task with that number. -/
theorem decimal_of_namesTask (hpids : ∀ t ∈ tasks, t.pid < 4294967296) :
    (∀ i, NamesTask tasks s i → DigitText s ∧ ∃ t, tasks[i]? = some t ∧ decimalOf s = t.pid) ↔
      ¬Overflowing tasks s := by
  constructor
  · rintro h ⟨hd, hlen, hbig, hmem⟩
    obtain ⟨i, hi⟩ := exists_taskWith hmem
    obtain ⟨-, t, ht, he⟩ := h i (namesTask_iff.mpr ⟨hd, hlen, hi⟩)
    have hsmall := hpids t (List.mem_of_getElem? ht)
    rw [he] at hbig
    exact absurd hsmall (Nat.not_lt.mpr hbig)
  · intro hno i h
    obtain ⟨hd, hlen, hi⟩ := namesTask_iff.mp h
    obtain ⟨⟨t, ht, he⟩, -⟩ := taskWith_iff.mp hi
    have hfits : decimalOf s < 4294967296 := by
      by_contra hbig
      exact hno ⟨hd, hlen, Nat.not_lt.mp hbig, mem_of_taskWith hi⟩
    rw [u32_of_lt hfits] at he
    exact ⟨hd, t, ht, he.symm⟩

/-- The printed name of a task denotes the first task with its pid. -/
theorem namesTask_dec (hpid : pid < 4294967296) :
    NamesTask tasks (synthPidToDec pid) i ↔ taskWith tasks pid = some i := by
  obtain ⟨hlen, hparse⟩ := pidText_dec hpid
  obtain ⟨hd, he⟩ := parsePid_iff.mp hparse
  rw [namesTask_iff, he]
  exact ⟨fun h => h.2.2, fun h => ⟨hd, hlen, h⟩⟩

/-- Where else `out->task` is set: at the files of a task. -/
theorem namesTask_of_task
    (h : (synthLookup (tasks.map TaskInfo.pid) (str "/proc/" ++ s)).bind (SynthId.task tasks) = some i) :
    NamesTask tasks s i ∨ ∃ s' name, name ∈ pidFiles ∧ s = s' ++ slash :: name ∧ NamesTask tasks s' i := by
  obtain ⟨sid, hs, hi⟩ := Option.bind_eq_some_iff.mp h
  have hentry := synthLookup_iff.mp hs
  generalize hpath : str "/proc/" ++ s = path at hentry
  cases hentry with
  | pidDir ht hmem => exact .inl (.inl ⟨_, hs, hi⟩)
  | @pidFile s' name pid slot ht hmem hname =>
      obtain rfl := List.append_cancel_left hpath
      exact .inr ⟨s', name, List.mem_of_getElem? hname, rfl, .inl ⟨pid, synthLookup_pidDir.mpr ⟨ht, hmem⟩, hi⟩⟩
  | proc => cases hi
  | net => cases hi
  | proFile => cases hi
  | sysDir => cases hi
  | sysFile => cases hi

/-- The names below `/proc` denote pids, but for the numbers that do not fit
a word; a printed name denotes its task, unless another one before it on the
ready queue has the same pid.  The task is also set for a file below such a
name, and nowhere else. -/
theorem pid_names_iff (hpids : ∀ t ∈ tasks, t.pid < 4294967296) :
    (∀ s, (∀ i, NamesTask tasks s i → DigitText s ∧ ∃ t, tasks[i]? = some t ∧ decimalOf s = t.pid) ↔
      ¬Overflowing tasks s) ∧
    (∀ i t, tasks[i]? = some t → (NamesTask tasks (synthPidToDec t.pid) i ↔
      ∀ j < i, ∀ u, tasks[j]? = some u → u.pid ≠ t.pid)) ∧
    ∀ s i, (synthLookup (tasks.map TaskInfo.pid) (str "/proc/" ++ s)).bind (SynthId.task tasks) = some i →
      NamesTask tasks s i ∨ ∃ s' name, name ∈ pidFiles ∧ s = s' ++ slash :: name ∧ NamesTask tasks s' i := by
  refine ⟨fun s => decimal_of_namesTask hpids, fun i t ht => ?_, fun s i => namesTask_of_task⟩
  rw [namesTask_dec (hpids t (List.mem_of_getElem? ht)), taskWith_iff]
  exact ⟨fun h => h.2, fun h => ⟨⟨t, ht, rfl⟩, h⟩⟩

/-- The first shell, alone. -/
def shellInfo : TaskInfo :=
  { pid := 1, ppid := 0, state := 0, heapStart := 0, heapBrk := 0, heapEnd := 0, cpuTicks := 0,
    startTick := 0, comm := str "sh", cmdline := fun _ => 0 }

theorem pid_names_of_shell :
    (∀ t ∈ [shellInfo], t.pid < 4294967296) ∧
    NamesTask [shellInfo] (synthPidToDec 1) 0 := by
  have hpids : ∀ t ∈ [shellInfo], t.pid < 4294967296 := by decide
  exact ⟨hpids, ((pid_names_iff hpids).2.1 0 shellInfo rfl).mpr fun j hj => absurd hj (Nat.not_lt_zero j)⟩

/-- `/proc/4294967297` is the first shell. -/
theorem pid_name_reduced :
    ¬∀ i, NamesTask [shellInfo] (str "4294967297") i →
      DigitText (str "4294967297") ∧ ∃ t, [shellInfo][i]? = some t ∧ decimalOf (str "4294967297") = t.pid := by
  intro h
  have hlookup : synthLookup ([shellInfo].map TaskInfo.pid) (str "/proc/" ++ str "4294967297") =
      some (.pidDir 1) := by decide
  obtain ⟨-, t, ht, he⟩ := h 0 (.inl ⟨1, hlookup, by decide⟩)
  cases ht
  exact absurd he (by decide)

end Names

end LiteBSD
