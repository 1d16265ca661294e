/-
# `LiteBSD.Programs.Meminfo` — `/proc/meminfo` read back

The kernel writes a table, a label and a number on each line
(`proc_gen_file`), and `memstat` looks a number up by the beginning of its
label (`meminfo_kv`): the FIRST line that begins with the key counts.

    MemTotal:       130048 kB
    MemFree:        97212 kB
    ...

A key is found on its own line if no line above begins with it, and what is
between the key and the number are colons and spaces.  Both are facts about
the labels alone (`KeyFor`), so that the lookup is right whatever the numbers
are (`meminfoKv_table`).
-/
import LiteBSD.Programs.Memstat
import Mathlib.Algebra.Order.BigOperators.Group.List

namespace LiteBSD

/-! ## `memstat.c` -/

/-- `while (*p && *p != '\n') p++; if (*p) p++;` -/
def skipLine (p : CStr) : CStr := (p.dropWhile (· ≠ 10)).tail

theorem length_skipLine {p : CStr} (hp : p ≠ []) : (skipLine p).length < p.length := by
  have hle := (List.dropWhile_sublist (p := fun c : UInt8 => decide (c ≠ 10)) (l := p)).length_le
  have hpos := List.length_pos_iff.mpr hp
  rw [skipLine, List.length_tail]
  omega

/-- `meminfo_kv`, for a key without NUL. -/
def meminfoKv (key p : CStr) : Nat :=
  if p = [] then 0
  else if key <+: p then parseUl ((p.drop key.length).dropWhile fun c => c = 32 ∨ c = 58)
  else meminfoKv key (skipLine p)
termination_by p.length
decreasing_by exact length_skipLine ‹_›

structure MemValues where
  totalKb : Nat
  freeKb : Nat
  availKb : Nat
  cachedKb : Nat
  activeKb : Nat
  inactiveKb : Nat
  slabKb : Nat
  mappedKb : Nat
  pagetablesKb : Nat
  usedKb : Nat
deriving DecidableEq, Repr

/-- `read_mem_values`, for the text of `/proc/meminfo`. -/
def readMemValues (text : CStr) : MemValues :=
  if (text.take (contentMax - 1)).length > 0 then
    let buf := slurp text contentMax
    let total := meminfoKv (str "MemTotal") buf
    let free := meminfoKv (str "MemFree") buf
    { totalKb := total
      freeKb := free
      availKb := meminfoKv (str "MemAvailable") buf
      cachedKb := meminfoKv (str "Cached") buf
      activeKb := meminfoKv (str "Active") buf
      inactiveKb := meminfoKv (str "Inactive") buf
      slabKb := meminfoKv (str "Slab") buf
      mappedKb := meminfoKv (str "Mapped") buf
      pagetablesKb := meminfoKv (str "PageTables") buf
      usedKb := if total ≥ free then total - free else 0 }
  else ⟨0, 0, 0, 0, 0, 0, 0, 0, 0, 0⟩

/-! ## The table -/

/-- A label, a number and the unit. -/
def memLine (l : CStr × Nat) : CStr := l.1 ++ (decimal l.2 ++ str " kB\n")

def memTable (ls : List (CStr × Nat)) : CStr := ls.flatMap memLine

/-- `active_kb` -/
def activeKb (k : SysInfo) : Nat :=
  let used := if kernMemTotalKb k ≥ kernMemFreeKb k then kernMemTotalKb k - kernMemFreeKb k else 0
  if used ≥ u32 (k.heapUsed / 1024 + k.initrdBytes / 1024) then
    sub32 (sub32 used (k.heapUsed / 1024)) (k.initrdBytes / 1024)
  else 0

/-- What the kernel prints, line by line. -/
def meminfoLines (k : SysInfo) : List (CStr × Nat) :=
  [(str "MemTotal:       ", kernMemTotalKb k), (str "MemFree:        ", kernMemFreeKb k),
    (str "MemAvailable:   ", u32 (kernMemFreeKb k + k.initrdBytes / 1024)), (str "Buffers:            ", 0),
    (str "Cached:         ", k.initrdBytes / 1024), (str "Active:         ", activeKb k),
    (str "Inactive:           ", 0), (str "Shmem:              ", 0), (str "Slab:           ", k.heapUsed / 1024),
    (str "SReclaimable:       ", 0), (str "SwapTotal:          ", 0), (str "SwapFree:           ", 0),
    (str "Dirty:              ", 0), (str "Writeback:          ", 0), (str "AnonPages:      ", activeKb k),
    (str "Mapped:          ", 3072), (str "PageTables:       ", 256)]

def meminfoLabels : List CStr :=
  [str "MemTotal:       ", str "MemFree:        ", str "MemAvailable:   ", str "Buffers:            ",
    str "Cached:         ", str "Active:         ", str "Inactive:           ", str "Shmem:              ",
    str "Slab:           ", str "SReclaimable:       ", str "SwapTotal:          ", str "SwapFree:           ",
    str "Dirty:              ", str "Writeback:          ", str "AnonPages:      ", str "Mapped:          ",
    str "PageTables:       "]

/-- The keys that `memstat` looks up. -/
def memstatKeys : List CStr :=
  [str "MemTotal", str "MemFree", str "MemAvailable", str "Cached", str "Active", str "Inactive", str "Slab",
    str "Mapped", str "PageTables"]

/-- The number of the first label that begins with the key. -/
def findKey (key : CStr) : List (CStr × Nat) → Nat
  | [] => 0
  | l :: ls => if key <+: l.1 then l.2 else findKey key ls

/-- The label is longer than the key, ends its line nowhere, and continues
the key, if it does, with colons and spaces. -/
def KeyFor (key label : CStr) : Prop :=
  key.length ≤ label.length ∧ 10 ∉ label ∧ (key <+: label → ∀ c ∈ label.drop key.length, c = 32 ∨ c = 58)

instance (key label : CStr) : Decidable (KeyFor key label) := inferInstanceAs (Decidable (_ ∧ _ ∧ (_ → _)))

section Table

variable {key label rest : CStr} {ls : List (CStr × Nat)} {n : Nat} {k : SysInfo}

theorem newline_notMem_decimal (n : Nat) : (10 : UInt8) ∉ decimal n := by
  intro hmem
  exact absurd (decimal_digits n 10 hmem).1 (by decide)

/-- A line whose label does not begin with the key is passed over. -/
theorem meminfoKv_skip (hkey : KeyFor key label) (hno : ¬key <+: label) :
    meminfoKv key (memLine (label, n) ++ rest) = meminfoKv key rest := by
  have hunit : str " kB\n" = [32, 107, 66] ++ [10] := rfl
  have hfront : ∀ c ∈ label ++ (decimal n ++ [32, 107, 66]), decide (c ≠ 10) = true := by
    intro c hc
    rw [decide_eq_true_iff]
    rintro rfl
    rcases List.mem_append.mp hc with hc | hc
    · exact hkey.2.1 hc
    · rcases List.mem_append.mp hc with hc | hc
      · exact newline_notMem_decimal n hc
      · exact absurd hc (by decide)
  have hline : memLine (label, n) ++ rest = label ++ (decimal n ++ [32, 107, 66]) ++ 10 :: rest := by
    simp only [memLine, hunit, List.append_assoc, List.singleton_append]
  have hnil : memLine (label, n) ++ rest ≠ [] := by
    rw [hline]
    exact List.append_ne_nil_of_right_ne_nil _ (List.cons_ne_nil _ _)
  have hskip : skipLine (memLine (label, n) ++ rest) = rest := by
    rw [hline, skipLine, List.dropWhile_append_of_pos hfront]
    rfl
  have hmiss : ¬key <+: memLine (label, n) ++ rest := by
    rw [memLine, List.append_assoc]
    intro hpre
    exact hno (List.prefix_of_prefix_length_le hpre (List.prefix_append _ _) hkey.1)
  rw [meminfoKv, if_neg hnil, if_neg hmiss, hskip]

/-- On a line whose label begins with the key, the number is read. -/
theorem meminfoKv_hit (hkey : KeyFor key label) (hyes : key <+: label) (hne : label ≠ []) (hn : n < 4294967296) :
    meminfoKv key (memLine (label, n) ++ rest) = n := by
  obtain ⟨sep, rfl⟩ := hyes
  have hsep : ∀ c ∈ sep, decide (c = 32 ∨ c = 58) = true := by
    intro c hc
    refine decide_eq_true (hkey.2.2 (List.prefix_append _ _) c ?_)
    rwa [List.drop_left]
  have hnil : memLine (key ++ sep, n) ++ rest ≠ [] := by
    rw [memLine, List.append_assoc]
    exact List.append_ne_nil_of_left_ne_nil hne _
  have hline : memLine (key ++ sep, n) ++ rest = key ++ (sep ++ (decimal n ++ (str " kB\n" ++ rest))) := by
    simp only [memLine, List.append_assoc]
  have hdigit : (decimal n ++ (str " kB\n" ++ rest)).dropWhile (fun c => decide (c = 32 ∨ c = 58)) =
      decimal n ++ (str " kB\n" ++ rest) := by
    cases htext : decimal n with
    | nil => exact absurd htext (decimal_ne_nil n)
    | cons c digits =>
        have hc := decimal_digits n c (by rw [htext]; exact List.mem_cons_self)
        refine List.dropWhile_cons_of_neg ?_
        rw [decide_eq_true_iff]
        rintro (rfl | rfl)
        · exact absurd hc.1 (by decide)
        · exact absurd hc.2 (by decide)
  rw [meminfoKv, if_neg hnil, hline, if_pos (List.prefix_append _ _), List.drop_left,
    List.dropWhile_append_of_pos hsep, hdigit]
  exact parseUl_decimal hn rfl

theorem findKey_mem (h : ∃ l ∈ ls, key <+: l.1) : ∃ l ∈ ls, key <+: l.1 ∧ findKey key ls = l.2 := by
  induction ls with
  | nil => exact absurd h (by simp)
  | cons l ls ih =>
      rw [findKey]
      by_cases hyes : key <+: l.1
      · exact ⟨l, List.mem_cons_self, hyes, if_pos hyes⟩
      · obtain ⟨m, hm, hpre⟩ := h
        rcases List.mem_cons.mp hm with rfl | hm
        · exact absurd hpre hyes
        · obtain ⟨x, hx, hpre', hfind⟩ := ih ⟨m, hm, hpre⟩
          exact ⟨x, List.mem_cons_of_mem _ hx, hpre', (if_neg hyes).trans hfind⟩

/-- The lookup in the text is the lookup in the table. -/
theorem meminfoKv_table (hlabels : ∀ l ∈ ls, l.1 ≠ [] ∧ KeyFor key l.1) (hwords : ∀ l ∈ ls, l.2 < 4294967296) :
    meminfoKv key (memTable ls) = findKey key ls := by
  induction ls with
  | nil =>
      rw [meminfoKv]
      exact if_pos rfl
  | cons l ls ih =>
      obtain ⟨⟨hne, hkey⟩, hlabels⟩ := List.forall_mem_cons.mp hlabels
      obtain ⟨hn, hwords⟩ := List.forall_mem_cons.mp hwords
      rw [memTable, List.flatMap_cons, findKey]
      by_cases hyes : key <+: l.1
      · rw [if_pos hyes]
        exact meminfoKv_hit hkey hyes hne hn
      · rw [if_neg hyes]
        exact (meminfoKv_skip hkey hyes).trans (ih hlabels hwords)

/-! ## The text -/

/-- The kernel prints the table. -/
theorem genMeminfo_eq (k : SysInfo) (o : Obuf) : genMeminfo k o = obPuts o (memTable (meminfoLines k)) := by
  -- the literals of the source run over the ends of lines
  have hfree : str " kB\nMemFree:        " = str " kB\n" ++ str "MemFree:        " := by decide +kernel
  have havail : str " kB\nMemAvailable:   " = str " kB\n" ++ str "MemAvailable:   " := by decide +kernel
  have hcached : str " kB\nBuffers:            0 kB\nCached:         " = str " kB\n" ++ (str "Buffers:            " ++
      (decimal 0 ++ (str " kB\n" ++ str "Cached:         "))) := by decide +kernel
  have hactive : str " kB\nActive:         " = str " kB\n" ++ str "Active:         " := by decide +kernel
  have hslab : str " kB\nInactive:           0 kB\nShmem:              0 kB\nSlab:           " = str " kB\n" ++
      (str "Inactive:           " ++ (decimal 0 ++ (str " kB\n" ++ (str "Shmem:              " ++ (decimal 0 ++
      (str " kB\n" ++ str "Slab:           ")))))) := by decide +kernel
  have hswap : str " kB\nSReclaimable:       0 kB\nSwapTotal:          0 kB\n" = str " kB\n" ++
      (str "SReclaimable:       " ++ (decimal 0 ++ (str " kB\n" ++ (str "SwapTotal:          " ++ (decimal 0 ++
      str " kB\n"))))) := by decide +kernel
  have hdirty : str "SwapFree:           0 kB\nDirty:              0 kB\n" = str "SwapFree:           " ++ (decimal 0 ++
      (str " kB\n" ++ (str "Dirty:              " ++ (decimal 0 ++ str " kB\n")))) := by decide +kernel
  have hanon : str "Writeback:          0 kB\nAnonPages:      " = str "Writeback:          " ++ (decimal 0 ++
      (str " kB\n" ++ str "AnonPages:      ")) := by decide +kernel
  have hmapped : str " kB\nMapped:          3072 kB\nPageTables:       256 kB\n" = str " kB\n" ++
      (str "Mapped:          " ++ (decimal 3072 ++ (str " kB\n" ++ (str "PageTables:       " ++ (decimal 256 ++
      str " kB\n"))))) := by decide +kernel
  unfold genMeminfo
  simp only [obPutu_eq, obPuts_append]
  refine congrArg (obPuts o) ?_
  rw [hfree, havail, hcached, hactive, hslab, hswap, hdirty, hanon, hmapped]
  simp only [memTable, meminfoLines, memLine, activeKb, List.flatMap_cons, List.flatMap_nil, List.append_assoc,
    List.append_nil]

theorem map_meminfoLines (k : SysInfo) : (meminfoLines k).map Prod.fst = meminfoLabels := rfl

theorem mem_meminfoLabels {l : CStr × Nat} (hl : l ∈ meminfoLines k) : l.1 ∈ meminfoLabels := by
  rw [← map_meminfoLines k]
  exact List.mem_map_of_mem hl

/-- Each key has a label, which is the key with a colon and spaces. -/
theorem keys_labelled : ∀ key ∈ memstatKeys, (∃ label ∈ meminfoLabels, key <+: label) ∧
    ∀ label ∈ meminfoLabels, key <+: label →
      label = key ++ 58 :: List.replicate (label.length - key.length - 1) 32 := by
  decide +kernel

/-- The labels are longer than the keys, and text. -/
theorem labels_plain : (∀ key ∈ memstatKeys, key.length ≤ 12) ∧
    ∀ label ∈ meminfoLabels, 12 < label.length ∧ label.length ≤ 20 ∧ 0 ∉ label ∧ 10 ∉ label := by
  decide +kernel

/-- The labels fit the keys, and a line. -/
theorem labels_fit : ∀ label ∈ meminfoLabels,
    label ≠ [] ∧ label.length ≤ 20 ∧ 0 ∉ label ∧ ∀ key ∈ memstatKeys, KeyFor key label := by
  intro label hlabel
  obtain ⟨hlong, hline, hzero, hend⟩ := labels_plain.2 label hlabel
  refine ⟨List.ne_nil_of_length_pos (by omega), hline, hzero, fun key hkey => ?_⟩
  refine ⟨(labels_plain.1 key hkey).trans hlong.le, hend, fun hpre c hc => ?_⟩
  rw [(keys_labelled key hkey).2 label hlabel hpre, List.drop_left] at hc
  rcases List.mem_cons.mp hc with rfl | hc
  · exact .inr rfl
  · exact .inl (List.eq_of_mem_replicate hc)

theorem length_memTable (k : SysInfo) : (memTable (meminfoLines k)).length ≤ 612 := by
  have hline : ∀ n ∈ (meminfoLines k).map fun l => (memLine l).length, n ≤ 36 := by
    intro n hn
    obtain ⟨l, hl, rfl⟩ := List.mem_map.mp hn
    have hlabel := (labels_fit l.1 (mem_meminfoLabels hl)).2.1
    have hdigits := length_decimal l.2
    have hunit : (str " kB\n").length = 4 := rfl
    rw [memLine, List.length_append, List.length_append, hunit]
    omega
  have hsum := List.sum_le_card_nsmul _ 36 hline
  have hcount : (meminfoLines k).length = 17 := rfl
  rw [List.length_map, hcount] at hsum
  rw [memTable, List.length_flatMap]
  exact hsum.trans (by decide)

theorem nul_notMem_memTable (k : SysInfo) : 0 ∉ memTable (meminfoLines k) := by
  intro hmem
  obtain ⟨l, hl, hmem⟩ := List.mem_flatMap.mp hmem
  rcases List.mem_append.mp hmem with hlabel | hmem
  · exact (labels_fit l.1 (mem_meminfoLabels hl)).2.2.1 hlabel
  · rcases List.mem_append.mp hmem with hdigit | hunit
    · exact absurd (decimal_digits l.2 0 hdigit).1 (by decide)
    · exact absurd hunit (by decide)

theorem slurp_memTable (k : SysInfo) : slurp (memTable (meminfoLines k)) contentMax = memTable (meminfoLines k) := by
  have hlen : (memTable (meminfoLines k)).length ≤ contentMax - 1 := (length_memTable k).trans (by decide)
  rw [slurp, List.take_of_length_le hlen, List.takeWhile_eq_self_iff]
  intro c hc
  rw [decide_eq_true_iff]
  rintro rfl
  exact nul_notMem_memTable k hc

/-- The text fits the buffer, and any larger one. -/
theorem procGenFile_meminfo {cap : Nat} (hcap : 613 ≤ cap) : procGenFile k 0 cap = some (memTable (meminfoLines k)) := by
  have hroom : ([] : CStr).length + (memTable (meminfoLines k)).length < cap := by
    have hlen := length_memTable k
    rw [List.length_nil]
    omega
  have hput : obPuts ⟨cap, []⟩ (memTable (meminfoLines k)) = ⟨cap, [] ++ memTable (meminfoLines k)⟩ := obPuts_room hroom
  rw [procGenFile, if_neg (by omega)]
  rw [genMeminfo_eq, hput, List.nil_append]

/-- The numbers of the kernel are words. -/
structure MemWords (k : SysInfo) : Prop where
  memTotalKb : k.memTotalKb < 4294967296
  initrdBytes : k.initrdBytes < 4294967296
  heapUsed : k.heapUsed < 4294967296

theorem kernMemTotalKb_word (h : MemWords k) : kernMemTotalKb k < 4294967296 := by
  unfold kernMemTotalKb
  split
  · exact h.memTotalKb
  · exact Nat.lt_of_le_of_lt (Nat.div_le_self _ _) (Nat.mod_lt _ (by decide))

theorem kernMemFreeKb_word (h : MemWords k) : kernMemFreeKb k < 4294967296 := by
  unfold kernMemFreeKb
  dsimp only
  split
  · decide
  · exact Nat.lt_of_le_of_lt (Nat.sub_le _ _) h.memTotalKb

theorem activeKb_word (k : SysInfo) : activeKb k < 4294967296 := by
  unfold activeKb
  generalize (if kernMemTotalKb k ≥ kernMemFreeKb k then kernMemTotalKb k - kernMemFreeKb k else 0) = used
  dsimp only
  split
  · exact Nat.mod_lt _ (by decide)
  · decide

theorem meminfoLines_words (h : MemWords k) : ∀ l ∈ meminfoLines k, l.2 < 4294967296 := by
  have hinitrd : k.initrdBytes / 1024 < 4294967296 := Nat.lt_of_le_of_lt (Nat.div_le_self _ _) h.initrdBytes
  have hheap : k.heapUsed / 1024 < 4294967296 := Nat.lt_of_le_of_lt (Nat.div_le_self _ _) h.heapUsed
  have htotal := kernMemTotalKb_word h
  have hfree := kernMemFreeKb_word h
  have hactive := activeKb_word k
  have havail : u32 (kernMemFreeKb k + k.initrdBytes / 1024) < 4294967296 := Nat.mod_lt _ (by decide)
  simp only [meminfoLines, List.forall_mem_cons, List.not_mem_nil, false_implies, implies_true, and_true]
  omega

/-- A key of `memstat` finds the number of its line. -/
theorem meminfoKv_memTable (h : MemWords k) {key : CStr} (hkey : key ∈ memstatKeys) :
    meminfoKv key (memTable (meminfoLines k)) = findKey key (meminfoLines k) := by
  refine meminfoKv_table (fun l hl => ?_) (meminfoLines_words h)
  obtain ⟨hne, -, -, hfits⟩ := labels_fit l.1 (mem_meminfoLabels hl)
  exact ⟨hne, hfits key hkey⟩

/-- What the kernel prints is what `memstat` reads: the text is not cut off,
and each key finds the number of its line. -/
theorem meminfo_decoded (h : MemWords k) : ∃ text, (∀ cap ≥ contentMax, procGenFile k 0 cap = some text) ∧
    text = memTable (meminfoLines k) ∧
    (∀ key ∈ memstatKeys, ∃ pad n, (∀ c ∈ pad, c = 32) ∧ (key ++ 58 :: pad, n) ∈ meminfoLines k ∧
      meminfoKv key text = n) ∧
    readMemValues text =
      { totalKb := kernMemTotalKb k
        freeKb := kernMemFreeKb k
        availKb := u32 (kernMemFreeKb k + k.initrdBytes / 1024)
        cachedKb := k.initrdBytes / 1024
        activeKb := activeKb k
        inactiveKb := 0
        slabKb := k.heapUsed / 1024
        mappedKb := 3072
        pagetablesKb := 256
        usedKb := if kernMemTotalKb k ≥ kernMemFreeKb k then kernMemTotalKb k - kernMemFreeKb k else 0 } := by
  refine ⟨_, fun cap hcap => procGenFile_meminfo (Nat.le_trans (by decide) hcap), rfl, fun key hkey => ?_, ?_⟩
  · obtain ⟨⟨label, hlabel, hpre⟩, hpad⟩ := keys_labelled key hkey
    rw [← map_meminfoLines k] at hlabel
    obtain ⟨l, hl, rfl⟩ := List.mem_map.mp hlabel
    obtain ⟨m, hm, hpre', hfind⟩ := findKey_mem ⟨l, hl, hpre⟩
    have hsame := hpad m.1 (mem_meminfoLabels hm) hpre'
    refine ⟨List.replicate (m.1.length - key.length - 1) 32, m.2, fun c hc => List.eq_of_mem_replicate hc, ?_,
      (meminfoKv_memTable h hkey).trans hfind⟩
    rw [← hsame]
    exact hm
  · have hfound : ∀ key ∈ memstatKeys, meminfoKv key (memTable (meminfoLines k)) = findKey key (meminfoLines k) :=
      fun key => meminfoKv_memTable h
    simp only [memstatKeys, List.forall_mem_cons, List.not_mem_nil, false_implies, implies_true, and_true] at hfound
    obtain ⟨htotal, hfree, havail, hcached, hactive, hinactive, hslab, hmapped, hpagetables⟩ := hfound
    have hread : 0 < ((memTable (meminfoLines k)).take (contentMax - 1)).length := Nat.succ_pos _
    rw [readMemValues, if_pos hread, slurp_memTable]
    dsimp only
    rw [htotal, hfree, havail, hcached, hactive, hinactive, hslab, hmapped, hpagetables]
    rfl

/-- A machine with 128 MB, an archive of 7 MB and some heap. -/
def someMemory : SysInfo where
  memTotalKb := 130048
  initrdBytes := 7340032
  heapUsed := 1234567
  cpuVendor := []
  cpuBrand := []
  cpuFamily := 6
  cpuModel := 0
  cpuStepping := 0
  dmiVendor := []
  dmiProduct := []
  dmiVersion := []
  ticks := 0
  idleTicks := 0
  nextPid := 1
  taskCount := 0
  devices := []
  device := none

theorem someMemory_decoded : ∃ text, procGenFile someMemory 0 contentMax = some text ∧
    readMemValues text = ⟨130048, 121675, 128843, 7168, 0, 0, 1205, 3072, 256, 8373⟩ := by
  obtain ⟨text, htext, -, -, hread⟩ := @meminfo_decoded someMemory ⟨by decide, by decide, by decide⟩
  exact ⟨text, htext contentMax (Nat.le_refl _), hread⟩

end Table

end LiteBSD
