/-
# `LiteBSD.Programs.Memstat` — `/proc/<pid>/stat` read back

The kernel writes a line of fields (`proc_gen_pidfile`), and `memstat` takes
it apart by counting them:

    pid (comm) S ppid pgrp session 0 0 0 0 0 0 0 utime ... starttime vsize rss ...
                 |-------------- 19 fields are skipped --------------|

The name stands between parentheses, as it is.  `memstat` reads it up to the
first `)`, so that the line is read as it was written if there is none in the
name, and only then (`stat_decoded_iff`).
-/
import LiteBSD.Execve.Model
import LiteBSD.Vfs.Sysinfo
import Mathlib.Data.List.TakeWhile

namespace LiteBSD

/-! ## `memstat.c` -/

/-- `while (*s >= '0' && *s <= '9') v = v * 10 + (*s++ - '0')` -/
def parseUlDigits (v : Nat) : CStr → Nat
  | [] => v
  | c :: s => if 48 ≤ c ∧ c ≤ 57 then parseUlDigits (u32 (v * 10 + (c.toNat - 48))) s else v

def parseUl (s : CStr) : Nat := parseUlDigits 0 (s.dropWhile fun c => c = 32 ∨ c = 9)

/-- A field, and the spaces behind it. -/
def skipField (p : CStr) : CStr := (p.dropWhile (· ≠ 32)).dropWhile (· = 32)

def skipFields : Nat → CStr → CStr
  | 0, p => p
  | n + 1, p => skipFields n (skipField p)

/-- The fields of a `struct proc_mem_info` that come from `stat`. -/
structure ProcMemInfo where
  comm : CStr
  state : UInt8
  vsizeKb : Nat
  rssKb : Nat
deriving DecidableEq, Repr

/-- What `slurp` leaves in a buffer of `cap` bytes. -/
def slurp (text : CStr) (cap : Nat) : CStr := (text.take (cap - 1)).takeWhile (· ≠ 0)

/-- The parser in `collect_process_memory`; `none` for a line that is passed
over, or that ends before the state. -/
def collectStat (buf : CStr) : Option ProcMemInfo :=
  let p := buf.dropWhile (· ≠ 40)
  if p = [] then none
  else
    let p := p.tail
    let comm := (p.takeWhile (· ≠ 41)).take 31
    let p := (p.drop comm.length).tail
    match p.dropWhile (· = 32) with
    | [] => none
    | state :: p =>
        let p := skipFields 19 (p.dropWhile (· = 32))
        let vsizeKb := parseUl p / 1024
        some ⟨comm, state, vsizeKb, u32 (parseUl (skipField p) * 4)⟩

/-! ## What the kernel computes for a task -/

def pidState (t : TaskInfo) : UInt8 := if t.state = 1 then 90 else if t.state = 2 then 83 else 82

def pidVsize (t : TaskInfo) : Nat :=
  if t.heapEnd > t.heapStart then u32 (t.heapEnd - t.heapStart + 0x400000) else 0

def pidRss (t : TaskInfo) : Nat :=
  if t.heapEnd > t.heapStart ∧ t.heapBrk > t.heapStart then u32 (t.heapBrk - t.heapStart + 4095) / 4096 else 0

/-- A task of the kernel: its numbers are words, and its name is one that
`execve` has given it. -/
structure TaskOf (t : TaskInfo) (path : CStr) : Prop where
  comm : t.comm = Execve.commOf path
  pid : t.pid < 4294967296
  ppid : t.ppid < 4294967296
  heapBrk : t.heapBrk < 4294967296
  heapEnd : t.heapEnd < 4294967296
  cpuTicks : t.cpuTicks < 4294967296
  startTick : t.startTick < 4294967296

/-! ## Numbers in decimal -/

section Numbers

/-- What `ob_putu` puts. -/
def decimal (v : Nat) : CStr := if v = 0 then [48] else (digitsOf 12 v).reverse

def IsDigit (c : UInt8) : Prop := 48 ≤ c ∧ c ≤ 57

theorem digit_byte {d : Nat} (h : d < 10) : IsDigit (48 + d).toUInt8 ∧ (48 + d).toUInt8.toNat - 48 = d := by
  have hall : ∀ d < 10, (48 ≤ (48 + d).toUInt8 ∧ (48 + d).toUInt8 ≤ 57) ∧ (48 + d).toUInt8.toNat - 48 = d := by decide
  exact hall d h

theorem digitsOf_digits (room v : Nat) : ∀ c ∈ digitsOf room v, IsDigit c := by
  induction room generalizing v with
  | zero => exact fun c hc => absurd hc List.not_mem_nil
  | succ room ih =>
      rw [digitsOf]
      split
      · exact fun c hc => absurd hc List.not_mem_nil
      · intro c hc
        rcases List.mem_cons.mp hc with rfl | htail
        · exact (digit_byte (Nat.mod_lt _ (by decide))).1
        · exact ih (v / 10) c htail

theorem decimal_digits (v : Nat) : ∀ c ∈ decimal v, IsDigit c := by
  intro c hc
  unfold decimal at hc
  split at hc
  · rw [List.mem_singleton.mp hc]
    exact ⟨by decide, by decide⟩
  · exact digitsOf_digits 12 v c (List.mem_reverse.mp hc)

theorem length_decimal (v : Nat) : (decimal v).length ≤ 12 := by
  unfold decimal
  split
  · decide
  · rw [List.length_reverse]
    exact length_digitsOf 12 v

theorem decimal_ne_nil (v : Nat) : decimal v ≠ [] := by
  unfold decimal
  split
  · exact List.cons_ne_nil _ _
  · rename_i hv
    rw [Ne, List.reverse_eq_nil_iff, digitsOf, if_neg hv]
    exact List.cons_ne_nil _ _

theorem parseUlDigits_cons {v : Nat} {c : UInt8} (h : IsDigit c) (s : CStr) :
    parseUlDigits v (c :: s) = parseUlDigits (u32 (v * 10 + (c.toNat - 48))) s :=
  if_pos h

/-- The digits are read from the highest on. -/
theorem parseUlDigits_digitsOf {room v : Nat} (hroom : v < 10 ^ room) (hword : v < 4294967296) (rest : CStr) :
    parseUlDigits 0 ((digitsOf room v).reverse ++ rest) = parseUlDigits v rest := by
  induction room generalizing v rest with
  | zero =>
      rw [Nat.pow_zero, Nat.lt_one_iff] at hroom
      rw [hroom]
      rfl
  | succ room ih =>
      rw [digitsOf]
      split
      · rename_i hzero
        rw [hzero]
        rfl
      · have hdigit := digit_byte (Nat.mod_lt v (show 0 < 10 by decide))
        have hhigh : v / 10 < 10 ^ room := by
          rw [Nat.pow_succ] at hroom
          omega
        rw [List.reverse_cons, List.append_assoc, List.singleton_append, ih hhigh (by omega),
          parseUlDigits_cons hdigit.1, hdigit.2, Nat.div_add_mod', u32_of_lt hword]

/-- A number that is followed by no digit is read back. -/
theorem parseUl_decimal {v : Nat} (hword : v < 4294967296) {rest : CStr} (hrest : rest.head? = some 32) :
    parseUl (decimal v ++ rest) = v := by
  have hstop : parseUlDigits v rest = v := by
    cases rest with
    | nil => rfl
    | cons c rest =>
        obtain rfl : c = 32 := Option.some.inj hrest
        exact if_neg (by decide)
  have hstart : (decimal v ++ rest).dropWhile (fun c => c = 32 ∨ c = 9) = decimal v ++ rest := by
    cases htext : decimal v with
    | nil => exact absurd htext (decimal_ne_nil v)
    | cons c digits =>
        have hc := decimal_digits v c (by rw [htext]; exact List.mem_cons_self)
        refine List.dropWhile_cons_of_neg ?_
        rw [decide_eq_true_iff]
        rintro (rfl | rfl) <;> exact absurd hc.1 (by decide)
  rw [parseUl, hstart]
  unfold decimal
  split
  · rename_i hzero
    rw [hzero] at hstop ⊢
    exact hstop
  · rw [parseUlDigits_digitsOf (Nat.lt_trans hword (by decide)) hword]
    exact hstop

end Numbers

/-! ## The line of fields -/

section Line

variable {o : Obuf} {w rest : CStr} {ws : List CStr}

/-- Within its capacity, a buffer takes the text as it is. -/
theorem obPuts_room (h : o.b.length + w.length < o.cap) : obPuts o w = ⟨o.cap, o.b ++ w⟩ := by
  induction w generalizing o with
  | nil => rw [List.append_nil]; rfl
  | cons c w ih =>
      rw [List.length_cons] at h
      have hc : obPutc o c = ⟨o.cap, o.b ++ [c]⟩ := if_pos (by omega)
      have hrest := @ih ⟨o.cap, o.b ++ [c]⟩ (by
        dsimp only
        rw [List.length_append, List.length_singleton]
        omega)
      rw [obPuts, List.foldl_cons, hc]
      rw [List.append_assoc, List.singleton_append] at hrest
      exact hrest

theorem obPutc_eq (o : Obuf) (c : UInt8) : obPutc o c = obPuts o [c] := rfl

theorem obPutu_eq (o : Obuf) (v : Nat) : obPutu o v = obPuts o (decimal v) := by
  unfold obPutu decimal
  split
  · rfl
  · rfl

theorem obPuts_append (o : Obuf) (w w' : CStr) : obPuts (obPuts o w) w' = obPuts o (w ++ w') := by
  unfold obPuts
  rw [List.foldl_append]

/-- Words with a space behind each. -/
def fields (ws : List CStr) (rest : CStr) : CStr := ws.foldr (fun w s => w ++ 32 :: s) rest

/-- A field can be told from the spaces around it. -/
def IsWord (w : CStr) : Prop := w ≠ [] ∧ 32 ∉ w

theorem decimal_word (v : Nat) : IsWord (decimal v) := by
  refine ⟨decimal_ne_nil v, fun hmem => ?_⟩
  exact absurd (decimal_digits v 32 hmem).1 (by decide)

theorem dropWhile_spaces (h : rest.head? ≠ some 32) : rest.dropWhile (fun c => decide (c = 32)) = rest := by
  cases rest with
  | nil => rfl
  | cons c rest => exact List.dropWhile_cons_of_neg fun hc => h (congrArg some (of_decide_eq_true hc))

theorem skipField_word (hw : 32 ∉ w) (hrest : rest.head? ≠ some 32) : skipField (w ++ 32 :: rest) = rest := by
  have hword : ∀ c ∈ w, decide (c ≠ 32) = true := fun c hc => decide_eq_true fun he => hw (he ▸ hc)
  unfold skipField
  rw [List.dropWhile_append_of_pos hword, List.dropWhile_cons_of_neg (by decide), List.dropWhile_cons_of_pos (by decide)]
  exact dropWhile_spaces hrest

theorem fields_head (hws : ∀ w ∈ ws, IsWord w) (hrest : rest.head? ≠ some 32) : (fields ws rest).head? ≠ some 32 := by
  cases ws with
  | nil => exact hrest
  | cons w ws =>
      obtain ⟨hne, hspace⟩ := hws w List.mem_cons_self
      obtain ⟨c, w', rfl⟩ := List.exists_cons_of_ne_nil hne
      intro he
      exact hspace (Option.some.inj he ▸ List.mem_cons_self)

theorem skipFields_fields (hws : ∀ w ∈ ws, IsWord w) (hrest : rest.head? ≠ some 32) :
    skipFields ws.length (fields ws rest) = rest := by
  induction ws with
  | nil => rfl
  | cons w ws ih =>
      have hws' : ∀ u ∈ ws, IsWord u := fun u hu => hws u (List.mem_cons_of_mem _ hu)
      have hstep : skipField (fields (w :: ws) rest) = fields ws rest :=
        skipField_word (hws w List.mem_cons_self).2 (fields_head hws' hrest)
      rw [List.length_cons, skipFields, hstep]
      exact ih hws'

/-- The fields between the state and the size. -/
def statFields (t : TaskInfo) : List CStr :=
  [decimal t.ppid, decimal t.pid, decimal t.pid, [48], [48], [48], [48], [48], [48], [48], decimal t.cpuTicks,
    [48], [48], [48], [50, 48], [48], [49], [48], decimal t.startTick]

/-- What stands behind the last field that is read. -/
def statEnd : CStr := str "0 0 0 0 0 0 0 0 0 0 0 0 0 0 0 0 0 0 0 0 0 0 0 0 0 0 0 0 0\n"

def shownComm (t : TaskInfo) : CStr := if t.comm = [] then [63] else t.comm

/-- The line as a whole. -/
def statLine (t : TaskInfo) : CStr :=
  decimal t.pid ++ 32 :: 40 :: (shownComm t ++ 41 :: 32 :: pidState t :: 32 ::
    fields (statFields t) (decimal (pidVsize t) ++ 32 :: (decimal (pidRss t) ++ 32 :: statEnd)))

theorem genPidStat_eq (t : TaskInfo) (o : Obuf) : genPidStat t o = obPuts o (statLine t) := by
  unfold genPidStat
  simp only [obPutu_eq, obPutc_eq, obPuts_append]
  refine congrArg (obPuts o) ?_
  -- both sides are one list, once the literals are
  have hopen : str " (" = [32, 40] := rfl
  have hclose : str ") " = [41, 32] := rfl
  have hzeros : str " 0 0 0 0 0 0 0 " = [32, 48, 32, 48, 32, 48, 32, 48, 32, 48, 32, 48, 32, 48, 32] := rfl
  have hprio : str " 0 0 0 20 0 1 0 " = [32, 48, 32, 48, 32, 48, 32, 50, 48, 32, 48, 32, 49, 32, 48, 32] := rfl
  have hend : str " 0 0 0 0 0 0 0 0 0 0 0 0 0 0 0 0 0 0 0 0 0 0 0 0 0 0 0 0 0\n" = 32 :: statEnd := rfl
  rw [hopen, hclose, hzeros, hprio, hend]
  simp only [List.append_assoc, List.cons_append, List.nil_append]
  rfl

end Line

/-! ## What is read back -/

section Read

variable {t : TaskInfo} {path : CStr}

theorem pidVsize_word (t : TaskInfo) : pidVsize t < 4294967296 := by
  unfold pidVsize
  split
  · exact Nat.mod_lt _ (by decide)
  · decide

theorem pidRss_pages (t : TaskInfo) : pidRss t < 1048576 := by
  have hword : u32 (t.heapBrk - t.heapStart + 4095) < 4294967296 := Nat.mod_lt _ (by decide)
  unfold pidRss
  split
  · omega
  · decide

/-- A name is 1 to 15 bytes of the path, or a question mark. -/
theorem commOf_spec (path : CStr) :
    Execve.commOf path ≠ [] ∧ (Execve.commOf path).length ≤ 15 ∧ ∀ c ∈ Execve.commOf path, c ∈ path ∨ c = 63 := by
  unfold Execve.commOf
  dsimp only
  split
  · exact ⟨List.cons_ne_nil _ _, by decide, fun c hc => .inr (List.mem_singleton.mp hc)⟩
  · rename_i hne
    refine ⟨hne, List.length_take_le _ _, fun c hc => .inl ?_⟩
    have hmem := List.mem_reverse.mp (List.mem_of_mem_take hc)
    exact List.mem_reverse.mp ((List.takeWhile_sublist _).subset hmem)

theorem TaskOf.shown (h : TaskOf t path) : shownComm t = t.comm := by
  unfold shownComm
  rw [if_neg (h.comm ▸ (commOf_spec path).1)]

theorem statFields_words (t : TaskInfo) : ∀ w ∈ statFields t, IsWord w := by
  have hlit : IsWord [48] ∧ IsWord [49] ∧ IsWord [50, 48] := by
    refine ⟨⟨?_, ?_⟩, ⟨?_, ?_⟩, ⟨?_, ?_⟩⟩ <;> decide
  intro w hw
  simp only [statFields, List.mem_cons, List.not_mem_nil, or_false] at hw
  rcases hw with rfl | rfl | rfl | rfl | rfl | rfl | rfl | rfl | rfl | rfl | rfl | rfl | rfl | rfl | rfl | rfl | rfl |
    rfl | rfl
  all_goals first
    | exact decimal_word _
    | exact hlit.1
    | exact hlit.2.1
    | exact hlit.2.2

theorem length_fields (ws : List CStr) (rest : CStr) :
    (fields ws rest).length = (ws.map fun w => w.length + 1).sum + rest.length := by
  induction ws with
  | nil => exact (Nat.zero_add _).symm
  | cons w ws ih =>
      rw [List.map_cons, List.sum_cons, Nat.add_assoc, ← ih]
      show (w ++ 32 :: fields ws rest).length = _
      rw [List.length_append, List.length_cons]
      omega

theorem TaskOf.line_length (h : TaskOf t path) : (statLine t).length ≤ 511 := by
  have hcomm : (shownComm t).length ≤ 15 := by
    rw [h.shown, h.comm]
    exact (commOf_spec path).2.1
  have h₁ := length_decimal t.pid
  have h₂ := length_decimal t.ppid
  have h₃ := length_decimal t.cpuTicks
  have h₄ := length_decimal t.startTick
  have h₅ := length_decimal (pidVsize t)
  have h₆ := length_decimal (pidRss t)
  have hend : statEnd.length = 58 := rfl
  simp only [statLine, length_fields, statFields, List.length_append, List.length_cons, List.length_nil, List.map_cons,
    List.map_nil, List.sum_cons, List.sum_nil, hend]
  omega

theorem mem_fields {ws : List CStr} {rest : CStr} {c : UInt8} (h : c ∈ fields ws rest) :
    (∃ w ∈ ws, c ∈ w) ∨ c = 32 ∨ c ∈ rest := by
  induction ws with
  | nil => exact .inr (.inr h)
  | cons w ws ih =>
      rcases List.mem_append.mp (show c ∈ w ++ 32 :: fields ws rest from h) with hw | htail
      · exact .inl ⟨w, List.mem_cons_self, hw⟩
      · rcases List.mem_cons.mp htail with hspace | hrest
        · exact .inr (.inl hspace)
        · rcases ih hrest with ⟨u, hu, hc⟩ | hc
          · exact .inl ⟨u, List.mem_cons_of_mem _ hu, hc⟩
          · exact .inr hc

/-- There is no NUL in the line. -/
theorem TaskOf.line_text (h : TaskOf t path) (hpath : 0 ∉ path) : 0 ∉ statLine t := by
  have hdecimal : ∀ v, (0 : UInt8) ∉ decimal v := fun v hmem => absurd (decimal_digits v 0 hmem).1 (by decide)
  have hcomm : (0 : UInt8) ∉ shownComm t := by
    intro hmem
    rw [h.shown, h.comm] at hmem
    rcases (commOf_spec path).2.2 0 hmem with hin | hmark
    · exact hpath hin
    · exact absurd hmark (by decide)
  have hstate : (0 : UInt8) ≠ pidState t := by
    unfold pidState
    split
    · decide
    · split <;> decide
  have hfields : ∀ w ∈ statFields t, (0 : UInt8) ∉ w := by
    intro w hw
    simp only [statFields, List.mem_cons, List.not_mem_nil, or_false] at hw
    rcases hw with rfl | rfl | rfl | rfl | rfl | rfl | rfl | rfl | rfl | rfl | rfl | rfl | rfl | rfl | rfl | rfl | rfl |
      rfl | rfl
    all_goals first
      | exact hdecimal _
      | decide
  have hend : (0 : UInt8) ∉ statEnd := by decide
  intro hmem
  simp only [statLine, List.mem_append, List.mem_cons] at hmem
  rcases hmem with h₁ | h₂ | h₃ | h₄ | h₅ | h₆ | h₇ | h₈ | h₉
  · exact hdecimal _ h₁
  · exact absurd h₂ (by decide)
  · exact absurd h₃ (by decide)
  · exact hcomm h₄
  · exact absurd h₅ (by decide)
  · exact absurd h₆ (by decide)
  · exact hstate h₇
  · exact absurd h₈ (by decide)
  · rcases mem_fields h₉ with ⟨w, hw, hc⟩ | hspace | htail
    · exact hfields w hw hc
    · exact absurd hspace (by decide)
    · simp only [List.mem_append, List.mem_cons] at htail
      rcases htail with h₁₀ | h₁₁ | h₁₂ | h₁₃ | h₁₄
      · exact hdecimal _ h₁₀
      · exact absurd h₁₁ (by decide)
      · exact hdecimal _ h₁₂
      · exact absurd h₁₃ (by decide)
      · exact hend h₁₄

/-- The name that is read has no closing parenthesis. -/
theorem collectStat_comm {buf : CStr} {info : ProcMemInfo} (h : collectStat buf = some info) : 41 ∉ info.comm := by
  unfold collectStat at h
  dsimp only at h
  split at h
  · cases h
  · split at h
    · cases h
    · cases h
      intro hmem
      have hbefore := List.mem_of_mem_take hmem
      exact absurd rfl (of_decide_eq_true (@List.mem_takeWhile_imp _ (fun c => decide (c ≠ 41)) _ _ hbefore))

/-- Up to the name, the name, and up to the first field behind the state. -/
theorem collectStat_parts {pid comm rest : CStr} {state : UInt8} (hpid : ∀ c ∈ pid, c ≠ 40) (hcomm : 41 ∉ comm)
    (hshort : comm.length ≤ 31) (hstate : state ≠ 32) (hrest : rest.head? ≠ some 32) :
    collectStat (pid ++ 32 :: 40 :: (comm ++ 41 :: 32 :: state :: 32 :: rest)) =
      some ⟨comm, state, parseUl (skipFields 19 rest) / 1024, u32 (parseUl (skipField (skipFields 19 rest)) * 4)⟩ := by
  have hpid' : ∀ c ∈ pid, decide (c ≠ 40) = true := fun c hc => decide_eq_true (hpid c hc)
  have hcomm' : ∀ c ∈ comm, decide (c ≠ 41) = true := fun c hc => decide_eq_true fun he => hcomm (he ▸ hc)
  have hopen : (pid ++ 32 :: 40 :: (comm ++ 41 :: 32 :: state :: 32 :: rest)).dropWhile (fun c => decide (c ≠ 40)) =
      40 :: (comm ++ 41 :: 32 :: state :: 32 :: rest) := by
    rw [List.dropWhile_append_of_pos hpid', List.dropWhile_cons_of_pos (by decide), List.dropWhile_cons_of_neg (by decide)]
  have hname : (comm ++ 41 :: 32 :: state :: 32 :: rest).takeWhile (fun c => decide (c ≠ 41)) = comm := by
    rw [List.takeWhile_append_of_pos hcomm', List.takeWhile_cons_of_neg (by decide), List.append_nil]
  have hbehind : (32 :: state :: 32 :: rest).dropWhile (fun c => decide (c = 32)) = state :: 32 :: rest := by
    rw [List.dropWhile_cons_of_pos (by decide)]
    exact dropWhile_spaces fun h => hstate (Option.some.inj h)
  have hfirst : (32 :: rest).dropWhile (fun c => decide (c = 32)) = rest := by
    rw [List.dropWhile_cons_of_pos (by decide), dropWhile_spaces hrest]
  unfold collectStat
  rw [hopen]
  dsimp only
  rw [if_neg (List.cons_ne_nil _ _), List.tail_cons, hname, List.take_of_length_le hshort, List.drop_left, List.tail_cons,
    hbehind]
  dsimp only
  rw [hfirst]

/-- A line whose name has no closing parenthesis. -/
theorem TaskOf.read_back (h : TaskOf t path) (hpath : 0 ∉ path) (hparen : 41 ∉ t.comm) :
    collectStat (slurp (statLine t) 512) = some ⟨t.comm, pidState t, pidVsize t / 1024, pidRss t * 4⟩ := by
  have hwhole : slurp (statLine t) 512 = statLine t := by
    unfold slurp
    rw [List.take_of_length_le h.line_length]
    exact List.takeWhile_eq_self_iff.mpr fun c hc => decide_eq_true fun he => h.line_text hpath (he ▸ hc)
  have hpid : ∀ c ∈ decimal t.pid, c ≠ 40 := by
    rintro c hc rfl
    exact absurd (decimal_digits _ _ hc).1 (by decide)
  have hshort : t.comm.length ≤ 31 := by
    rw [h.comm]
    exact Nat.le_trans (commOf_spec path).2.1 (by decide)
  have hstate : pidState t ≠ 32 := by
    unfold pidState
    split
    · decide
    · split <;> decide
  have hrss : (decimal (pidRss t) ++ 32 :: statEnd).head? ≠ some 32 :=
    @fields_head _ [decimal (pidRss t)] (fun w hw => List.mem_singleton.mp hw ▸ decimal_word _) (by decide)
  have hvsize : (decimal (pidVsize t) ++ 32 :: (decimal (pidRss t) ++ 32 :: statEnd)).head? ≠ some 32 :=
    @fields_head _ [decimal (pidVsize t)] (fun w hw => List.mem_singleton.mp hw ▸ decimal_word _) hrss
  have hcount : (statFields t).length = 19 := rfl
  have hskip := skipFields_fields (statFields_words t) hvsize
  rw [hcount] at hskip
  have hpages := pidRss_pages t
  rw [hwhole, statLine, h.shown, collectStat_parts hpid hparen hshort hstate (fields_head (statFields_words t) hvsize),
    hskip, parseUl_decimal (pidVsize_word t) rfl, skipField_word (decimal_word _).2 hrss,
    parseUl_decimal (Nat.lt_trans hpages (by decide)) rfl, u32_of_lt (by omega)]

end Read

/-- `memstat` recovers what the kernel wrote if the name has no closing
parenthesis, and only then. -/
theorem stat_decoded_iff {t : TaskInfo} {path : CStr} (ht : TaskOf t path) (hpath : 0 ∉ path) :
    (∃ text, procGenPidfile t 0 contentMax = some text ∧
      collectStat (slurp text 512) = some ⟨t.comm, pidState t, pidVsize t / 1024, pidRss t * 4⟩) ↔ 41 ∉ t.comm := by
  constructor
  · rintro ⟨text, _, hread⟩
    exact collectStat_comm hread
  · intro hparen
    refine ⟨statLine t, ?_, ht.read_back hpath hparen⟩
    have hroom : (0 : Nat) + (statLine t).length < contentMax :=
      Nat.lt_of_le_of_lt (Nat.le_of_eq (Nat.zero_add _)) (Nat.lt_of_le_of_lt ht.line_length (by decide))
    have htext : genPidStat t ⟨contentMax, []⟩ = ⟨contentMax, [] ++ statLine t⟩ :=
      (genPidStat_eq t _).trans (obPuts_room hroom)
    unfold procGenPidfile
    rw [if_neg (by decide), htext]
    rfl

/-- A task with a name of this path. -/
def taskOf (path : CStr) : TaskInfo :=
  { pid := 7, ppid := 1, state := 2, heapStart := 0x800000, heapBrk := 0x802000, heapEnd := 0x900000, cpuTicks := 42,
    startTick := 314, comm := Execve.commOf path, cmdline := fun _ => 0 }

theorem shell_decoded : ∃ text, procGenPidfile (taskOf (str "/bin/my sh")) 0 contentMax = some text ∧
    collectStat (slurp text 512) = some ⟨str "my sh", 83, 5120, 8⟩ :=
  (@stat_decoded_iff (taskOf (str "/bin/my sh")) (str "/bin/my sh")
    ⟨rfl, by decide, by decide, by decide, by decide, by decide, by decide⟩ (by decide)).mpr (by decide)

/-- The file `/bin/a)b`. -/
theorem parenthesis_in_name : ¬∀ t path, TaskOf t path → 0 ∉ path → ∃ text, procGenPidfile t 0 contentMax = some text ∧
    collectStat (slurp text 512) = some ⟨t.comm, pidState t, pidVsize t / 1024, pidRss t * 4⟩ := by
  intro hall
  obtain ⟨text, htext, hread⟩ := hall (taskOf (str "/bin/a)b")) (str "/bin/a)b")
    ⟨rfl, by decide, by decide, by decide, by decide, by decide, by decide⟩ (by decide)
  exact collectStat_comm hread (by decide)

end LiteBSD
