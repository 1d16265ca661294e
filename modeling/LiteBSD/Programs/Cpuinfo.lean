/-
# `LiteBSD.Programs.Cpuinfo` — `/proc/cpuinfo` read back

The kernel writes a line for each key, and `pcinfo` looks a value up by its key
(`cpuinfo_field`).  As in `memstat`, the FIRST line that begins with the key counts:

    model           : 13
    model name      : QEMU Virtual CPU

`model` begins both lines, and is the number only because that line is above the other.
What counts are the lines above the one that is looked for (`cpuinfoField_first`), not
those below.  The values are read back as they are, the last one without the line end
that `slurp` has taken away (`cpuinfo_decoded`).
-/
import LiteBSD.Programs.Meminfo
import Mathlib.Data.List.DropRight

namespace LiteBSD.Pcinfo

/-! ## `pcinfo.c` -/

/-- `slurp`: what is read, without the line ends behind it, up to its NUL. -/
def slurp (text : CStr) (cap : Nat) : CStr :=
  ((text.take (cap - 1)).rdropWhile fun c => c = 10 ∨ c = 13).takeWhile (· ≠ 0)

/-- `cpuinfo_field`, for a key without NUL. -/
def cpuinfoField (key : CStr) (cap : Nat) (p : CStr) : CStr :=
  if p = [] then []
  else if key <+: p then
    (((p.drop key.length).dropWhile fun c => c = 9 ∨ c = 32 ∨ c = 58).takeWhile (· ≠ 10)).take (cap - 1)
  else cpuinfoField key cap (skipLine p)
termination_by p.length
decreasing_by exact length_skipLine ‹_›

/-- What `main` shows of the processor. -/
structure CpuShown where
  vendor : CStr
  model : CStr
  family : CStr
  modelNumber : CStr
  stepping : CStr
deriving DecidableEq, Repr

/-- The part of `main` behind `--- CPU ---`, for the text of `/proc/cpuinfo`. -/
def showCpu (text : CStr) : Option CpuShown :=
  let buf := slurp text 4096
  if ((text.take 4095).rdropWhile fun c => c = 10 ∨ c = 13).length > 0 then
    some
      { vendor := cpuinfoField (str "vendor_id") 128 buf
        model := cpuinfoField (str "model name") 128 buf
        family := cpuinfoField (str "cpu family") 128 buf
        modelNumber := cpuinfoField (str "model") 128 buf
        stepping := cpuinfoField (str "stepping") 128 buf }
  else none

/-! ## Lines -/

/-- A label and a value. -/
def cpuLine (l : CStr × CStr) : CStr := l.1 ++ (l.2 ++ [10])

/-- The line is passed over when the key is looked for. -/
def Passed (key : CStr) (l : CStr × CStr) : Prop := (¬key <+: l.1 ∧ ¬l.1 <+: key) ∧ 10 ∉ l.1 ++ l.2

section Lines

variable {key sep value rest : CStr} {l : CStr × CStr} {before : List (CStr × CStr)} {cap : Nat}

theorem cpuinfoField_skip (h : Passed key l) : cpuinfoField key cap (cpuLine l ++ rest) = cpuinfoField key cap rest := by
  obtain ⟨⟨hno, hlabel⟩, hline⟩ := h
  have htext : cpuLine l ++ rest = l.1 ++ l.2 ++ 10 :: rest := by
    rw [cpuLine, List.append_assoc, List.append_assoc, List.append_assoc, List.singleton_append]
  have hfront : ∀ c ∈ l.1 ++ l.2, decide (c ≠ 10) = true := fun c hc => decide_eq_true fun he => hline (he ▸ hc)
  have hnil : cpuLine l ++ rest ≠ [] := by
    rw [htext]
    exact List.append_ne_nil_of_right_ne_nil _ (List.cons_ne_nil _ _)
  have hmiss : ¬key <+: cpuLine l ++ rest := by
    rw [cpuLine, List.append_assoc]
    intro hpre
    rcases List.prefix_or_prefix_of_prefix hpre (List.prefix_append _ _) with hkey | hkey
    · exact hno hkey
    · exact hlabel hkey
  have hskip : skipLine (cpuLine l ++ rest) = rest := by
    rw [htext, skipLine, List.dropWhile_append_of_pos hfront]
    rfl
  rw [cpuinfoField, if_neg hnil, if_neg hmiss, hskip]

/-- A value begins with none of the bytes that are passed over before it, and is a line. -/
def IsValue (value : CStr) : Prop := 10 ∉ value ∧ ∀ c ∈ value.head?, c ≠ 9 ∧ c ≠ 32 ∧ c ≠ 58

theorem cpuinfoField_hit (hkey : key ≠ []) (hsep : ∀ c ∈ sep, c = 9 ∨ c = 32 ∨ c = 58) (hvalue : IsValue value)
    (hrest : rest = [] ∨ rest.head? = some 10) :
    cpuinfoField key cap (key ++ (sep ++ (value ++ rest))) = value.take (cap - 1) := by
  have hskip : ∀ c ∈ sep, decide (c = 9 ∨ c = 32 ∨ c = 58) = true := fun c hc => decide_eq_true (hsep c hc)
  have hfirst : ∀ c ∈ (value ++ rest).head?, ¬(c = 9 ∨ c = 32 ∨ c = 58) := by
    intro c hc
    rw [List.head?_append] at hc
    cases value with
    | nil =>
        rcases hrest with rfl | hend
        · exact absurd hc nofun
        · rw [hend] at hc
          obtain rfl : c = 10 := (Option.some.inj hc).symm
          decide
    | cons d value =>
        obtain rfl : c = d := (Option.some.inj hc).symm
        obtain ⟨h9, h32, h58⟩ := hvalue.2 c rfl
        exact not_or.mpr ⟨h9, not_or.mpr ⟨h32, h58⟩⟩
  have hstart : (value ++ rest).dropWhile (fun c => decide (c = 9 ∨ c = 32 ∨ c = 58)) = value ++ rest := by
    cases htext : value ++ rest with
    | nil => rfl
    | cons c tail =>
        refine List.dropWhile_cons_of_neg fun hc => ?_
        exact hfirst c (by rw [htext]; rfl) (of_decide_eq_true hc)
  have htake : (value ++ rest).takeWhile (fun c => decide (c ≠ 10)) = value := by
    have hin : ∀ c ∈ value, decide (c ≠ 10) = true := fun c hc => decide_eq_true fun he => hvalue.1 (he ▸ hc)
    rw [List.takeWhile_append_of_pos hin]
    have hstop : rest.takeWhile (fun c => decide (c ≠ 10)) = [] := by
      cases rest with
      | nil => rfl
      | cons c rest =>
          obtain rfl : c = 10 := Option.some.inj (hrest.resolve_left (List.cons_ne_nil _ _))
          rfl
    rw [hstop, List.append_nil]
  rw [cpuinfoField, if_neg (List.append_ne_nil_of_left_ne_nil hkey _), if_pos (List.prefix_append _ _), List.drop_left,
    List.dropWhile_append_of_pos hskip, hstart, htake]

/-- The first line that begins with the key has the value, whatever the lines below are. -/
theorem cpuinfoField_first (hbefore : ∀ l ∈ before, Passed key l) (hkey : key ≠ [])
    (hsep : ∀ c ∈ sep, c = 9 ∨ c = 32 ∨ c = 58) (hvalue : IsValue value) (hrest : rest = [] ∨ rest.head? = some 10) :
    cpuinfoField key cap (before.flatMap cpuLine ++ (key ++ (sep ++ (value ++ rest)))) = value.take (cap - 1) := by
  induction before with
  | nil => exact cpuinfoField_hit hkey hsep hvalue hrest
  | cons l before ih =>
      obtain ⟨hl, hbefore⟩ := List.forall_mem_cons.mp hbefore
      rw [List.flatMap_cons, List.append_assoc, cpuinfoField_skip hl]
      exact ih hbefore

end Lines

/-! ## The text -/

section Text

variable {k : SysInfo}

/-- All lines but the last one. -/
def frontLines (k : SysInfo) : List (CStr × CStr) :=
  [(str "processor" ++ str "\t: ", [48]), (str "vendor_id" ++ str "\t: ", k.cpuVendor),
    (str "cpu family" ++ str "\t: ", decimal k.cpuFamily), (str "model" ++ str "\t\t: ", decimal k.cpuModel),
    (str "model name" ++ str "\t: ", k.cpuBrand)]

def frontLabels : List CStr :=
  [str "processor" ++ str "\t: ", str "vendor_id" ++ str "\t: ", str "cpu family" ++ str "\t: ",
    str "model" ++ str "\t\t: ", str "model name" ++ str "\t: "]

/-- The text without the line end behind it. -/
def cpuText (k : SysInfo) : CStr :=
  (frontLines k).flatMap cpuLine ++ (str "stepping" ++ (str "\t: " ++ (decimal k.cpuStepping ++ [])))

/-- The statics of `read_cpu`: they fit their arrays, are values of a line, and the brand
has no spaces in front. -/
structure CpuTexts (k : SysInfo) : Prop where
  vendor : IsValue k.cpuVendor ∧ 0 ∉ k.cpuVendor ∧ k.cpuVendor.length ≤ 12
  brand : IsValue k.cpuBrand ∧ 0 ∉ k.cpuBrand ∧ k.cpuBrand.length ≤ 48

/-- The kernel prints the lines. -/
theorem genCpuinfo_eq (k : SysInfo) (o : Obuf) : genCpuinfo k o = obPuts o (cpuText k ++ [10]) := by
  have hvendor : str "processor\t: 0\nvendor_id\t: " = str "processor" ++ (str "\t: " ++ ([48] ++ ([10] ++
      (str "vendor_id" ++ str "\t: ")))) := by simp [str]
  have hfamily : str "\ncpu family\t: " = [10] ++ (str "cpu family" ++ str "\t: ") := by simp [str]
  have hmodel : str "\nmodel\t\t: " = [10] ++ (str "model" ++ str "\t\t: ") := by simp [str]
  have hbrand : str "\nmodel name\t: " = [10] ++ (str "model name" ++ str "\t: ") := by simp [str]
  have hstepping : str "\nstepping\t: " = [10] ++ (str "stepping" ++ str "\t: ") := by simp [str]
  have hend : str "\n" = [10] := by simp [str]
  unfold genCpuinfo
  simp only [obPutu_eq, obPuts_append]
  refine congrArg (obPuts o) ?_
  rw [hvendor, hfamily, hmodel, hbrand, hstepping, hend]
  simp only [cpuText, frontLines, cpuLine, List.flatMap_cons, List.flatMap_nil, List.append_assoc,
    List.append_nil]

theorem decimal_value (v : Nat) : IsValue (decimal v) ∧ 0 ∉ decimal v := by
  refine ⟨⟨newline_notMem_decimal v, fun c hc => ?_⟩, fun hmem => absurd (decimal_digits v 0 hmem).1 (by decide)⟩
  have hdigit := decimal_digits v c (List.mem_of_mem_head? hc)
  refine ⟨?_, ?_, ?_⟩
  · rintro rfl
    exact absurd hdigit.1 (by decide)
  · rintro rfl
    exact absurd hdigit.1 (by decide)
  · rintro rfl
    exact absurd hdigit.2 (by decide)

theorem map_frontLines (k : SysInfo) : (frontLines k).map Prod.fst = frontLabels := rfl

/-- What is in the lines. -/
theorem CpuTexts.values (hk : CpuTexts k) : ∀ l ∈ frontLines k, IsValue l.2 ∧ 0 ∉ l.2 ∧ l.2.length ≤ 48 := by
  have hnumber (v : Nat) : IsValue (decimal v) ∧ 0 ∉ decimal v ∧ (decimal v).length ≤ 48 :=
    ⟨(decimal_value v).1, (decimal_value v).2, (length_decimal v).trans (by decide)⟩
  obtain ⟨hvendor, hnul, hlen⟩ := hk.vendor
  simp only [frontLines, List.forall_mem_cons, List.not_mem_nil, false_imp_iff, implies_true, and_true]
  exact ⟨hnumber 0, ⟨hvendor, hnul, hlen.trans (by decide)⟩, hnumber _, hnumber _, hk.brand⟩

theorem labels_text : ∀ label ∈ frontLabels, 10 ∉ label ∧ 0 ∉ label ∧ label.length ≤ 13 := by
  simp [frontLabels, str]

theorem mem_frontLabels {l : CStr × CStr} (hl : l ∈ frontLines k) : l.1 ∈ frontLabels := by
  rw [← map_frontLines k]
  exact List.mem_map_of_mem hl

theorem CpuTexts.length_le (hk : CpuTexts k) : (cpuText k).length ≤ 341 := by
  have hline : ∀ n ∈ (frontLines k).map fun l => (cpuLine l).length, n ≤ 62 := by
    intro n hn
    obtain ⟨l, hl, rfl⟩ := List.mem_map.mp hn
    have hlabel := (labels_text l.1 (mem_frontLabels hl)).2.2
    have hvalue := (hk.values l hl).2.2
    rw [cpuLine, List.length_append, List.length_append, List.length_singleton]
    omega
  have hsum := List.sum_le_card_nsmul _ 62 hline
  have hcount : (frontLines k).length = 5 := rfl
  rw [List.length_map, hcount] at hsum
  have hfront : ((frontLines k).map fun l => (cpuLine l).length).sum ≤ 310 := hsum.trans (by decide)
  have hdigits := length_decimal k.cpuStepping
  have hkey : (str "stepping").length = 8 := rfl
  have hsep : (str "\t: ").length = 3 := rfl
  rw [cpuText, List.length_append, List.length_flatMap, List.length_append, List.length_append, List.append_nil, hkey, hsep]
  omega

theorem CpuTexts.nul_notMem (hk : CpuTexts k) : 0 ∉ cpuText k := by
  have hlast : 0 ∉ str "stepping" ++ str "\t: " := by simp [str]
  intro hmem
  rcases List.mem_append.mp hmem with hfront | hmem
  · obtain ⟨l, hl, hmem⟩ := List.mem_flatMap.mp hfront
    rcases List.mem_append.mp hmem with hlabel | hmem
    · exact (labels_text l.1 (mem_frontLabels hl)).2.1 hlabel
    · rcases List.mem_append.mp hmem with hvalue | hend
      · exact (hk.values l hl).2.1 hvalue
      · exact absurd hend (by decide)
  · rw [List.append_nil, ← List.append_assoc] at hmem
    rcases List.mem_append.mp hmem with hkey | hdigit
    · exact hlast hkey
    · exact (decimal_value _).2 hdigit

/-- Behind the last digit there is one line end, and it is taken away. -/
theorem cpuText_stripped (k : SysInfo) : (cpuText k ++ [10]).rdropWhile (fun c => c = 10 ∨ c = 13) = cpuText k := by
  have hne := decimal_ne_nil k.cpuStepping
  have hdigit := decimal_digits _ _ (List.getLast_mem hne)
  have hend : ¬decide ((decimal k.cpuStepping).getLast hne = 10 ∨ (decimal k.cpuStepping).getLast hne = 13) = true := by
    rw [decide_eq_true_iff]
    rintro (he | he)
    · rw [he] at hdigit
      exact absurd hdigit.1 (by decide)
    · rw [he] at hdigit
      exact absurd hdigit.1 (by decide)
  have hsplit : cpuText k = (frontLines k).flatMap cpuLine ++ (str "stepping" ++ (str "\t: " ++
      (decimal k.cpuStepping).dropLast)) ++ [(decimal k.cpuStepping).getLast hne] := by
    rw [cpuText, List.append_nil, List.append_assoc, List.append_assoc, List.append_assoc,
      List.dropLast_append_getLast hne]
  rw [List.rdropWhile_concat_pos _ _ _ (by decide), hsplit]
  exact List.rdropWhile_concat_neg (fun c : UInt8 => decide (c = 10 ∨ c = 13)) _ _ hend

theorem CpuTexts.read (hk : CpuTexts k) : (cpuText k ++ [10]).take 4095 = cpuText k ++ [10] := by
  have hlen := hk.length_le
  refine List.take_of_length_le ?_
  rw [List.length_append, List.length_singleton]
  omega

theorem CpuTexts.slurped (hk : CpuTexts k) : slurp (cpuText k ++ [10]) 4096 = cpuText k := by
  unfold slurp
  rw [hk.read, cpuText_stripped, List.takeWhile_eq_self_iff]
  exact fun c hc => decide_eq_true fun he => hk.nul_notMem (he ▸ hc)

/-- A key that begins no label above its own line. -/
theorem CpuTexts.passed (hk : CpuTexts k) {key : CStr} {i : Nat}
    (hlabels : ∀ label ∈ frontLabels.take i, ¬key <+: label ∧ ¬label <+: key) :
    ∀ l ∈ (frontLines k).take i, Passed key l := by
  intro l hl
  have hin := List.mem_of_mem_take hl
  refine ⟨hlabels l.1 ?_, fun hmem => ?_⟩
  · rw [← map_frontLines k, ← List.map_take]
    exact List.mem_map_of_mem hl
  · rcases List.mem_append.mp hmem with hlabel | hvalue
    · exact (labels_text l.1 (mem_frontLabels hin)).1 hlabel
    · exact (hk.values l hin).1.1 hvalue

theorem CpuTexts.field (hk : CpuTexts k) {key sep value : CStr} {i : Nat}
    (hline : (frontLines k)[i]? = some (key ++ sep, value))
    (hlabels : ∀ label ∈ frontLabels.take i, ¬key <+: label ∧ ¬label <+: key) (hkey : key ≠ [])
    (hsep : ∀ c ∈ sep, c = 9 ∨ c = 32 ∨ c = 58) : cpuinfoField key 128 (cpuText k) = value := by
  obtain ⟨hi, hget⟩ := List.getElem?_eq_some_iff.mp hline
  obtain ⟨hvalue, -, hlen⟩ := hk.values _ (List.mem_of_getElem? hline)
  have hsplit : cpuText k = ((frontLines k).take i).flatMap cpuLine ++ (key ++ (sep ++ (value ++ (10 ::
      (((frontLines k).drop (i + 1)).flatMap cpuLine ++ (str "stepping" ++ (str "\t: " ++
        (decimal k.cpuStepping ++ [])))))))) := by
    rw [cpuText]
    conv_lhs => rw [← List.take_append_drop i (frontLines k), List.drop_eq_getElem_cons hi, hget]
    simp only [List.flatMap_append, List.flatMap_cons, cpuLine, List.append_assoc, List.cons_append, List.nil_append]
  rw [hsplit, cpuinfoField_first (hk.passed hlabels) hkey hsep hvalue (.inr rfl)]
  exact List.take_of_length_le (hlen.trans (by decide))

theorem CpuTexts.last_field (hk : CpuTexts k) : cpuinfoField (str "stepping") 128 (cpuText k) = decimal k.cpuStepping := by
  have hlabels : ∀ label ∈ frontLabels.take 5, ¬str "stepping" <+: label ∧ ¬label <+: str "stepping" := by
    simp [frontLabels, str]
  have hsep : ∀ c ∈ str "\t: ", c = 9 ∨ c = 32 ∨ c = 58 := by simp [str]
  have hfound := @cpuinfoField_first (str "stepping") (str "\t: ") (decimal k.cpuStepping) [] ((frontLines k).take 5) 128
    (hk.passed hlabels) (by simp [str]) hsep (decimal_value _).1 (.inl rfl)
  exact hfound.trans (List.take_of_length_le ((length_decimal _).trans (by decide)))

/-- **The processor, read back.**  What `pcinfo` shows of the processor is what the kernel
has in its statics. -/
theorem cpuinfo_decoded (hk : CpuTexts k) (tasks : List TaskInfo) :
    ∃ text, synthContent k tasks (.proFile 1) = some text ∧
      showCpu text = some ⟨k.cpuVendor, k.cpuBrand, decimal k.cpuFamily, decimal k.cpuModel, decimal k.cpuStepping⟩ := by
  refine ⟨cpuText k ++ [10], ?_, ?_⟩
  · have hlen := hk.length_le
    have hroom : ([] : CStr).length + (cpuText k ++ [10]).length < contentMax := by
      rw [List.length_append, List.length_nil, List.length_singleton, contentMax]
      omega
    have hput : obPuts ⟨contentMax, []⟩ (cpuText k ++ [10]) = ⟨contentMax, [] ++ (cpuText k ++ [10])⟩ := obPuts_room hroom
    have htext : synthContent k tasks (.proFile 1) = some (genCpuinfo k ⟨contentMax, []⟩).b := rfl
    rw [htext, genCpuinfo_eq, hput, List.nil_append]
  · have hpos : (cpuText k).length > 0 := by
      refine List.length_pos_iff.mpr (List.append_ne_nil_of_right_ne_nil _ ?_)
      exact List.append_ne_nil_of_left_ne_nil (by simp [str]) _
    have htab : ∀ c ∈ str "\t: ", c = 9 ∨ c = 32 ∨ c = 58 := by simp [str]
    have htabs : ∀ c ∈ str "\t\t: ", c = 9 ∨ c = 32 ∨ c = 58 := by simp [str]
    have hvendor : cpuinfoField (str "vendor_id") 128 (cpuText k) = k.cpuVendor :=
      hk.field (i := 1) rfl (by simp [frontLabels, str]) (by simp [str]) htab
    have hfamily : cpuinfoField (str "cpu family") 128 (cpuText k) = decimal k.cpuFamily :=
      hk.field (i := 2) rfl (by simp [frontLabels, str]) (by simp [str]) htab
    have hmodel : cpuinfoField (str "model") 128 (cpuText k) = decimal k.cpuModel :=
      hk.field (i := 3) rfl (by simp [frontLabels, str]) (by simp [str]) htabs
    have hbrand : cpuinfoField (str "model name") 128 (cpuText k) = k.cpuBrand :=
      hk.field (i := 4) rfl (by simp [frontLabels, str]) (by simp [str]) htab
    unfold showCpu
    rw [hk.slurped, hk.read, cpuText_stripped]
    rw [if_pos hpos, hvendor, hbrand, hfamily, hmodel, hk.last_field]

/-- QEMU's processor. -/
def someProcessor : SysInfo :=
  { someMemory with
    cpuVendor := str "GenuineIntel", cpuBrand := str "QEMU Virtual CPU", cpuFamily := 15, cpuModel := 107, cpuStepping := 1 }

theorem someProcessor_decoded : ∃ text, synthContent someProcessor [] (.proFile 1) = some text ∧
    showCpu text = some ⟨str "GenuineIntel", str "QEMU Virtual CPU", str "15", str "107", str "1"⟩ :=
  @cpuinfo_decoded someProcessor ⟨by simp [IsValue, someProcessor, str], by simp [IsValue, someProcessor, str]⟩ []

end Text

end LiteBSD.Pcinfo
