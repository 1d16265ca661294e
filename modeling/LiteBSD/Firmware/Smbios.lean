/-
# `LiteBSD.Firmware.Smbios` — who made the machine

`read_dmi` and `dmi_copy_string` of `src/sysinfo.c`.  Somewhere in the last 64 KiB below
1 MiB there is an entry point with the address of a table of structures, each of them

    type, length, and the rest of the formatted area
    its strings, with a NUL behind each, and one more NUL (two if there are none)

A byte of the formatted area that refers to a string has its number, from 1 on, or 0.
The structure of type 1 has the maker, the product and its version at offsets 4, 5, 6.

All of this comes from outside, and no length in it can be trusted.  For a table that
is as it should be the three files under `/sys/devices/virtual/dmi/id` show the strings
(`dmi_files_show_strings`); and whatever is there, nothing beyond 0x107000 is looked at
(`dmi_reads_low_memory`).  The statics that are written lie behind the kernel's code, and
the memory is taken to be the same until `read_dmi` returns.
-/
import LiteBSD.Initrd.Archive
import LiteBSD.Programs.Memstat
import LiteBSD.Vfs.Access

namespace LiteBSD.Smbios

open Lib

section Reader

variable (mem : Nat → UInt8)

/-- The loop of `dmi_copy_string`: `n` rounds are left, the string at `a` has the number
`cur`, if one begins there. -/
def findString (idx : Nat) : Nat → Nat → Nat → CStr
  | 0, _, _ => []
  | n + 1, a, cur =>
      if mem a = 0 ∧ mem (a + 1) = 0 then []
      else if cur = idx then memString mem a 63
      else findString idx n (a + 1) (if mem a = 0 then cur + 1 else cur)

/-- What is in `out` in the end, up to its NUL. -/
def dmiCopyString (table fmtLen idx : Nat) : CStr :=
  if idx = 0 then [] else findString mem idx 256 (table + fmtLen) 1

/-- To the first two NULs in a row, over `guard` bytes at most. -/
def skipStrings : Nat → Nat → Nat
  | 0, t => t
  | guard + 1, t => if mem t = 0 ∧ mem (t + 1) = 0 then t else skipStrings guard (t + 1)

/-- `dmi_vendor`, `dmi_product` and `dmi_version` -/
structure DmiInfo where
  vendor : CStr
  product : CStr
  version : CStr
deriving DecidableEq, Repr

/-- The walk over at most so many structures. -/
def walkTable : Nat → Nat → Option DmiInfo
  | 0, _ => none
  | s + 1, t =>
      let len := (mem (t + 1)).toNat
      if len < 4 ∨ len > 64 then none
      else if mem t = 127 then none
      else if mem t = 1 ∧ len ≥ 8 then
        some ⟨dmiCopyString mem t len (mem (t + 4)).toNat, dmiCopyString mem t len (mem (t + 5)).toNat,
          dmiCopyString mem t len (mem (t + 6)).toNat⟩
      else walkTable s (skipStrings mem 512 (t + len) + 2)

/-- `*(const uint32_t*)a` -/
def wordAt (a : Nat) : Nat :=
  (mem a).toNat + 256 * (mem (a + 1)).toNat + 65536 * (mem (a + 2)).toNat + 16777216 * (mem (a + 3)).toNat

/-- The address of the table, if there is an entry point at `e` that is taken. -/
def entryPoint (e : Nat) : Option Nat :=
  if mem e ≠ 95 ∨ mem (e + 1) ≠ 83 ∨ mem (e + 2) ≠ 77 ∨ mem (e + 3) ≠ 95 then none
  else if (mem (e + 5)).toNat < 0x1F then none
  else if wordAt mem (e + 0x18) < 0x400 ∨ wordAt mem (e + 0x18) ≥ 0x100000 then none
  else some (wordAt mem (e + 0x18))

/-- `read_dmi`: the first entry point is followed, and no other. -/
def readDmi : Option DmiInfo :=
  ((List.range 4096).findSome? fun k => entryPoint mem (0xF0000 + 16 * k)).bind (walkTable mem 48)

/-- The statics after `sysinfo_init`. -/
def dmiInfo : DmiInfo := (readDmi mem).getD ⟨str "Unknown", str "Unknown", str "Unknown"⟩

end Reader

/-! ## A table -/

/-- A structure of the table; `body` is the formatted area behind the length. -/
structure Record where
  type : UInt8
  body : List UInt8
  strings : List CStr

namespace Record

def len (r : Record) : Nat := r.body.length + 2

/-- The strings with their NULs. -/
def texts (strings : List CStr) : List UInt8 := strings.flatMap (· ++ [0])

/-- What is behind the formatted area. -/
def area (r : Record) : List UInt8 := if r.strings = [] then [0, 0] else texts r.strings ++ [0]

def encode (r : Record) : List UInt8 := r.type :: r.len.toUInt8 :: r.body ++ r.area

/-- The string with this number: its first 63 bytes, and nothing if it begins behind the
first 256 bytes of the strings. -/
def string (r : Record) (idx : Nat) : CStr :=
  if idx = 0 ∨ 256 ≤ (texts (r.strings.take (idx - 1))).length then []
  else ((r.strings[idx - 1]?).getD []).take 63

/-- The string that the byte at this offset refers to. -/
def field (r : Record) (offset : Nat) : CStr := r.string ((r.body[offset - 2]?).getD 0).toNat

structure WellFormed (r : Record) : Prop where
  len : 4 ≤ r.len ∧ r.len ≤ 64
  strings : ∀ s ∈ r.strings, s ≠ [] ∧ 0 ∉ s
  area : (texts r.strings).length ≤ 513

/-- System information. -/
def IsSystem (r : Record) : Prop := r.type = 1 ∧ 8 ≤ r.len

end Record

section Strings

variable {mem : Nat → UInt8} {a n : Nat} {strings : List CStr} {s : CStr}

/-- The first byte of a text without a NUL, and the others. -/
theorem holdsAt_text {c : UInt8} (hs : HoldsAt mem a (c :: s)) (hzero : 0 ∉ c :: s) :
    mem a ≠ 0 ∧ HoldsAt mem (a + 1) s ∧ 0 ∉ s := by
  obtain ⟨hc, hrest⟩ := holdsAt_cons.mp hs
  obtain ⟨hne, hrestzero⟩ := not_or.mp (mt List.mem_cons.mpr hzero)
  exact ⟨fun h => hne (hc.symm.trans h).symm, hrest, hrestzero⟩

/-- Bytes that are not NUL are passed one by one. -/
theorem skipStrings_text (hs : HoldsAt mem a s) (hzero : 0 ∉ s) (n : Nat) :
    skipStrings mem (s.length + n) a = skipStrings mem n (a + s.length) := by
  induction s generalizing a with
  | nil => rw [List.length_nil, Nat.zero_add, Nat.add_zero]
  | cons c s ih =>
      obtain ⟨hmem, hrest, hrestzero⟩ := holdsAt_text hs hzero
      have hsteps : (c :: s).length + n = s.length + n + 1 := by
        rw [List.length_cons]
        omega
      rw [hsteps, skipStrings, if_neg fun h => hmem h.1, ih hrest hrestzero, List.length_cons]
      congr 1
      omega

theorem findString_text {idx cur : Nat} (hs : HoldsAt mem a s) (hzero : 0 ∉ s) (hcur : cur ≠ idx) (n : Nat) :
    findString mem idx (s.length + n) a cur = findString mem idx n (a + s.length) cur := by
  induction s generalizing a with
  | nil => rw [List.length_nil, Nat.zero_add, Nat.add_zero]
  | cons c s ih =>
      obtain ⟨hmem, hrest, hrestzero⟩ := holdsAt_text hs hzero
      have hsteps : (c :: s).length + n = s.length + n + 1 := by
        rw [List.length_cons]
        omega
      rw [hsteps, findString, if_neg fun h => hmem h.1, if_neg hcur, if_neg hmem, ih hrest hrestzero, List.length_cons]
      congr 1
      omega

theorem texts_cons (s : CStr) (strings : List CStr) : Record.texts (s :: strings) = s ++ ([0] ++ Record.texts strings) := by
  rw [Record.texts, List.flatMap_cons, List.append_assoc]
  rfl

/-- The bytes of a string, its NUL, and those of the others. -/
theorem holdsAt_texts (h : HoldsAt mem a (Record.texts (s :: strings) ++ [0])) :
    HoldsAt mem a s ∧ mem (a + s.length) = 0 ∧ HoldsAt mem (a + s.length + 1) (Record.texts strings ++ [0]) := by
  rw [texts_cons, List.append_assoc, List.append_assoc, holdsAt_append] at h
  obtain ⟨hs, hrest⟩ := h
  exact ⟨hs, holdsAt_cons.mp hrest⟩

theorem length_texts (s : CStr) (strings : List CStr) :
    (Record.texts (s :: strings)).length = s.length + 1 + (Record.texts strings).length := by
  rw [texts_cons, List.length_append, List.length_append, List.length_singleton, Nat.add_assoc]

/-- A string does not begin with a NUL. -/
theorem first_ne_zero (hwf : ∀ s ∈ strings, s ≠ [] ∧ 0 ∉ s) (hne : strings ≠ [])
    (h : HoldsAt mem a (Record.texts strings ++ [0])) : mem a ≠ 0 ∧ 2 ≤ (Record.texts strings).length := by
  obtain ⟨s, rest, rfl⟩ := List.exists_cons_of_ne_nil hne
  obtain ⟨hnil, hzero⟩ := hwf s List.mem_cons_self
  obtain ⟨c, s, rfl⟩ := List.exists_cons_of_ne_nil hnil
  refine ⟨(holdsAt_text (holdsAt_texts h).1 hzero).1, ?_⟩
  rw [length_texts, List.length_cons]
  omega

/-- The strings are skipped, up to the two NULs behind them. -/
theorem skipStrings_texts (hwf : ∀ s ∈ strings, s ≠ [] ∧ 0 ∉ s) (hne : strings ≠ [])
    (h : HoldsAt mem a (Record.texts strings ++ [0])) (hn : (Record.texts strings).length ≤ n + 1) :
    skipStrings mem n a + 2 = a + (Record.texts strings).length + 1 := by
  induction strings generalizing a n with
  | nil => exact absurd rfl hne
  | cons s rest ih =>
      obtain ⟨hs, hend, hrest⟩ := holdsAt_texts h
      have hzero := (hwf s List.mem_cons_self).2
      rw [length_texts] at hn ⊢
      obtain ⟨m, rfl⟩ : ∃ m, n = s.length + m := Nat.exists_eq_add_of_le (by omega)
      rw [skipStrings_text hs hzero]
      by_cases hlast : rest = []
      · subst hlast
        have hnext : mem (a + s.length + 1) = 0 := (holdsAt_cons.mp hrest).1
        have hstop : skipStrings mem m (a + s.length) = a + s.length := by
          cases m with
          | zero => rfl
          | succ m => exact if_pos ⟨hend, hnext⟩
        rw [hstop]
        show a + s.length + 2 = a + (s.length + 1 + 0) + 1
        omega
      · have hrestwf : ∀ s ∈ rest, s ≠ [] ∧ 0 ∉ s := fun s hs => hwf s (List.mem_cons_of_mem _ hs)
        obtain ⟨hnext, hlong⟩ := first_ne_zero hrestwf hlast hrest
        obtain ⟨m, rfl⟩ : ∃ k, m = k + 1 := Nat.exists_eq_add_of_le' (by omega)
        rw [skipStrings, if_neg fun hz => hnext hz.2, ih hrestwf hlast hrest (by omega)]
        omega

/-- The string with the number is found, if its beginning is within reach. -/
theorem findString_texts {idx cur : Nat} (hwf : ∀ s ∈ strings, s ≠ [] ∧ 0 ∉ s) (hne : strings ≠ [])
    (h : HoldsAt mem a (Record.texts strings ++ [0])) (hword : a + (Record.texts strings).length < 4294967296)
    (hcur : cur ≤ idx) : findString mem idx n a cur =
      if (Record.texts (strings.take (idx - cur))).length < n then ((strings[idx - cur]?).getD []).take 63 else [] := by
  induction strings generalizing a n cur with
  | nil => exact absurd rfl hne
  | cons s rest ih =>
      obtain ⟨hs, hend, hrest⟩ := holdsAt_texts h
      obtain ⟨hnil, hzero⟩ := hwf s List.mem_cons_self
      obtain ⟨hfirst, -⟩ := first_ne_zero hwf hne h
      rw [length_texts] at hword
      by_cases hidx : cur = idx
      · subst hidx
        have hstring : HoldsAt mem a (s ++ [0]) := holdsAt_append.mpr ⟨hs, holdsAt_cons.mpr ⟨hend, nofun⟩⟩
        cases n with
        | zero => rfl
        | succ n =>
            rw [findString, if_neg fun hz => hfirst hz.1, if_pos rfl, memString_take hstring hzero (by omega), Nat.sub_self]
            rfl
      · obtain ⟨k, hk⟩ : ∃ k, idx - cur = k + 1 := Nat.exists_eq_add_of_le' (by omega)
        have hprev : idx - (cur + 1) = k := by omega
        rw [hk, List.take_succ_cons, List.getElem?_cons_succ, length_texts]
        rcases Nat.lt_or_ge s.length n with hn | hn
        · obtain ⟨m, rfl⟩ : ∃ m, n = s.length + (m + 1) := ⟨n - s.length - 1, by omega⟩
          rw [findString_text hs hzero hidx, findString]
          by_cases hlast : rest = []
          · subst hlast
            have hnext : mem (a + s.length + 1) = 0 := (holdsAt_cons.mp hrest).1
            rw [if_pos ⟨hend, hnext⟩, List.getElem?_nil]
            split <;> rfl
          · have hrestwf : ∀ s ∈ rest, s ≠ [] ∧ 0 ∉ s := fun s hs => hwf s (List.mem_cons_of_mem _ hs)
            obtain ⟨hnext, -⟩ := first_ne_zero hrestwf hlast hrest
            rw [if_neg fun hz => hnext hz.2, if_neg hidx, if_pos hend,
              ih hrestwf hlast hrest (by omega) (by omega), hprev]
            exact if_congr (by omega) rfl rfl
        · -- the rounds run out within the string
          have hpart : HoldsAt mem a (s.take n) := by
            have hsplit := hs
            rw [← List.take_append_drop n s, holdsAt_append] at hsplit
            exact hsplit.1
          have hlen : (s.take n).length = n := List.length_take_of_le hn
          have hrun := findString_text hpart (fun hz => hzero (List.mem_of_mem_take hz)) hidx 0
          rw [hlen, Nat.add_zero] at hrun
          rw [hrun, if_neg (by omega)]
          rfl

end Strings

/-! ## Structures -/

section Records

variable {mem : Nat → UInt8} {r : Record} {t : Nat}

theorem Record.parts (h : HoldsAt mem t r.encode) : mem t = r.type ∧ mem (t + 1) = r.len.toUInt8 ∧
    HoldsAt mem (t + 2) r.body ∧ HoldsAt mem (t + r.len) r.area := by
  obtain ⟨hhead, harea⟩ := holdsAt_append.mp h
  obtain ⟨htype, hrest⟩ := holdsAt_cons.mp hhead
  obtain ⟨hlen, hbody⟩ := holdsAt_cons.mp hrest
  exact ⟨htype, hlen, hbody, harea⟩

theorem Record.length_encode (r : Record) : r.encode.length = r.len + r.area.length := List.length_append

theorem Record.WellFormed.length_le (hr : r.WellFormed) : r.encode.length ≤ 578 := by
  have hlen := hr.len
  have harea := hr.area
  rw [Record.length_encode]
  unfold Record.area
  split
  · show r.len + 2 ≤ 578
    omega
  · rw [List.length_append, List.length_singleton]
    omega

/-- Behind the strings of a structure comes the next one. -/
theorem Record.WellFormed.skip (hr : r.WellFormed) (h : HoldsAt mem t r.encode) :
    skipStrings mem 512 (t + r.len) + 2 = t + r.encode.length := by
  have harea := (Record.parts h).2.2.2
  rw [Record.length_encode]
  unfold Record.area at harea ⊢
  split at harea
  · rename_i hnone
    obtain ⟨hfirst, hsecond⟩ := holdsAt_cons.mp harea
    rw [if_pos hnone, skipStrings, if_pos ⟨hfirst, (holdsAt_cons.mp hsecond).1⟩]
    rfl
  · rename_i hsome
    rw [if_neg hsome, skipStrings_texts hr.strings hsome harea hr.area, List.length_append, List.length_singleton]
    omega

/-- A string of the structure is copied. -/
theorem Record.WellFormed.copied (hr : r.WellFormed) (h : HoldsAt mem t r.encode) (hword : t + 578 < 4294967296)
    (idx : Nat) : dmiCopyString mem t r.len idx = r.string idx := by
  have harea := (Record.parts h).2.2.2
  have hlen := hr.len
  have hshort := hr.area
  unfold dmiCopyString Record.string
  by_cases hidx : idx = 0
  · rw [if_pos hidx, if_pos (.inl hidx)]
  rw [if_neg hidx]
  unfold Record.area at harea
  split at harea
  · rename_i hnone
    obtain ⟨hfirst, hsecond⟩ := holdsAt_cons.mp harea
    rw [findString, if_pos ⟨hfirst, (holdsAt_cons.mp hsecond).1⟩, hnone, List.getElem?_nil]
    split <;> rfl
  · rename_i hsome
    rw [findString_texts hr.strings hsome harea (by omega) (by omega)]
    by_cases hreach : (Record.texts (r.strings.take (idx - 1))).length < 256
    · rw [if_pos hreach, if_neg (by omega)]
    · rw [if_neg hreach, if_pos (.inr (by omega))]

theorem Record.field_at (h : HoldsAt mem t r.encode) {offset : Nat} (hlow : 2 ≤ offset) (hhigh : offset < r.len) :
    (r.body[offset - 2]?).getD 0 = mem (t + offset) := by
  have hbody := (Record.parts h).2.2.1
  have hin : offset - 2 < r.body.length := by
    unfold Record.len at hhigh
    omega
  rw [hbody _ hin, Nat.add_assoc, Nat.add_sub_cancel' hlow]
  rfl

/-- The length is one that the walk goes on with. -/
theorem Record.WellFormed.len_at (hr : r.WellFormed) (h : HoldsAt mem t r.encode) :
    (mem (t + 1)).toNat = r.len ∧ ¬(r.len < 4 ∨ r.len > 64) := by
  have hlen := hr.len
  rw [(Record.parts h).2.1]
  exact ⟨Nat.mod_eq_of_lt (by omega), by omega⟩

/-- The walk finds the structure of type 1. -/
theorem walkTable_finds {sys : Record} {before after : List Record} {fuel : Nat}
    (h : HoldsAt mem t ((before ++ sys :: after).flatMap Record.encode))
    (hbefore : ∀ r ∈ before, r.WellFormed ∧ r.type ≠ 127 ∧ ¬r.IsSystem) (hwf : sys.WellFormed) (hsys : sys.IsSystem)
    (hfuel : before.length < fuel) (hword : t + 578 * fuel < 4294967296) :
    walkTable mem fuel t = some ⟨sys.field 4, sys.field 5, sys.field 6⟩ := by
  obtain ⟨fuel, rfl⟩ : ∃ k, fuel = k + 1 := Nat.exists_eq_add_of_le' (Nat.zero_lt_of_lt hfuel)
  induction before generalizing t fuel with
  | nil =>
      rw [List.nil_append, List.flatMap_cons, holdsAt_append] at h
      have hat := h.1
      obtain ⟨hlen, hgood⟩ := hwf.len_at hat
      obtain ⟨htype, hlong⟩ := hsys
      have hone : mem t = 1 := (Record.parts hat).1.trans htype
      rw [Nat.mul_succ, ← Nat.add_assoc] at hword
      have hroom : t + 578 < 4294967296 := by omega
      have hfield {offset : Nat} (hlow : 2 ≤ offset) (hhigh : offset < sys.len) :
          dmiCopyString mem t sys.len (mem (t + offset)).toNat = sys.field offset := by
        rw [hwf.copied hat hroom, Record.field, Record.field_at hat hlow hhigh]
      rw [walkTable, hlen, if_neg hgood, hone, if_neg (by decide), if_pos ⟨rfl, hlong⟩,
        hfield (by omega) (by omega), hfield (by omega) (by omega), hfield (by omega) (by omega)]
  | cons r before ih =>
      obtain ⟨⟨hr, hend, hother⟩, hrest⟩ := List.forall_mem_cons.mp hbefore
      rw [List.cons_append, List.flatMap_cons, holdsAt_append] at h
      obtain ⟨hat, hnext⟩ := h
      obtain ⟨hlen, hgood⟩ := hr.len_at hat
      have hshort := hr.length_le
      have hnot : ¬(r.type = 1 ∧ r.len ≥ 8) := hother
      rw [List.length_cons] at hfuel
      obtain ⟨fuel, rfl⟩ : ∃ k, fuel = k + 1 := Nat.exists_eq_add_of_le' (by omega)
      rw [walkTable, hlen, if_neg hgood, (Record.parts hat).1, if_neg hend, if_neg hnot, hr.skip hat]
      rw [Nat.mul_succ, ← Nat.add_assoc] at hword
      have hstep : t + r.encode.length + 578 * (fuel + 1) ≤ t + 578 * (fuel + 1) + 578 := by
        rw [Nat.add_right_comm]
        exact Nat.add_le_add_left hshort _
      exact ih hnext hrest fuel (Nat.lt_of_succ_lt_succ hfuel) (Nat.lt_of_le_of_lt hstep hword)

end Records

/-! ## The BIOS -/

/-- `"_SM_"` -/
def anchor : List UInt8 := [95, 83, 77, 95]

/-- The first entry point is the one at the paragraph `k`, and has the address of a table
with these structures. -/
structure FirmwareAt (mem : Nat → UInt8) (k addr : Nat) (records : List Record) : Prop where
  inArea : k < 4096
  anchored : HoldsAt mem (0xF0000 + 16 * k) anchor
  first : ∀ j < k, ¬HoldsAt mem (0xF0000 + 16 * j) anchor
  length : 0x1F ≤ (mem (0xF0000 + 16 * k + 5)).toNat
  address : wordAt mem (0xF0000 + 16 * k + 0x18) = addr
  low : 0x400 ≤ addr ∧ addr < 0x100000
  table : HoldsAt mem addr (records.flatMap Record.encode)

section Firmware

variable {mem : Nat → UInt8} {e k addr : Nat}

theorem entryPoint_none (h : ¬HoldsAt mem e anchor) : entryPoint mem e = none := by
  refine if_pos ?_
  by_contra hall
  simp only [not_or, ne_eq, Decidable.not_not] at hall
  obtain ⟨h0, h1, h2, h3⟩ := hall
  exact h (holdsAt_cons.mpr ⟨h0, holdsAt_cons.mpr ⟨h1, holdsAt_cons.mpr ⟨h2, holdsAt_cons.mpr ⟨h3, nofun⟩⟩⟩⟩)

theorem entryPoint_some (h : HoldsAt mem e anchor) (hlength : 0x1F ≤ (mem (e + 5)).toNat)
    (hlow : 0x400 ≤ wordAt mem (e + 0x18) ∧ wordAt mem (e + 0x18) < 0x100000) :
    entryPoint mem e = some (wordAt mem (e + 0x18)) := by
  obtain ⟨h0, h⟩ := holdsAt_cons.mp h
  obtain ⟨h1, h⟩ := holdsAt_cons.mp h
  obtain ⟨h2, h⟩ := holdsAt_cons.mp h
  have h3 := (holdsAt_cons.mp h).1
  have hanchor : ¬(mem e ≠ 95 ∨ mem (e + 1) ≠ 83 ∨ mem (e + 2) ≠ 77 ∨ mem (e + 3) ≠ 95) := by
    rintro (hne | hne | hne | hne)
    · exact hne h0
    · exact hne h1
    · exact hne h2
    · exact hne h3
  unfold entryPoint
  rw [if_neg hanchor, if_neg (Nat.not_lt.mpr hlength), if_neg (by omega)]

theorem FirmwareAt.read {before after : List Record} {sys : Record} (h : FirmwareAt mem k addr (before ++ sys :: after))
    (hbefore : ∀ r ∈ before, r.WellFormed ∧ r.type ≠ 127 ∧ ¬r.IsSystem) (hwf : sys.WellFormed) (hsys : sys.IsSystem)
    (hfew : before.length < 48) : readDmi mem = some ⟨sys.field 4, sys.field 5, sys.field 6⟩ := by
  have haddr := h.low
  have hentry : entryPoint mem (0xF0000 + 16 * k) = some addr := by
    have hlow := h.low
    rw [← h.address] at hlow ⊢
    exact entryPoint_some h.anchored h.length hlow
  have hfound : ((List.range 4096).findSome? fun k => entryPoint mem (0xF0000 + 16 * k)) = some addr := by
    rw [List.findSome?_eq_some_iff]
    refine ⟨List.range k, k, List.range' (k + 1) (4096 - (k + 1)), ?_, hentry, fun j hj => ?_⟩
    · have hk := h.inArea
      have hsplit := @List.range'_append_1 0 k (4096 - (k + 1) + 1)
      rw [Nat.zero_add, show k + (4096 - (k + 1) + 1) = 4096 by omega] at hsplit
      rw [List.range_eq_range', List.range_eq_range', ← List.range'_succ, hsplit]
    · exact entryPoint_none (h.first j (List.mem_range.mp hj))
  rw [readDmi, hfound]
  exact walkTable_finds h.table hbefore hwf hsys hfew (by omega)

end Firmware

/-- What the files show once `sysinfo_init` has read the memory. -/
def sysinfoInit (k : SysInfo) (mem : Nat → UInt8) : SysInfo :=
  { k with
    dmiVendor := (dmiInfo mem).vendor
    dmiProduct := (dmiInfo mem).product
    dmiVersion := (dmiInfo mem).version }

theorem Record.length_field (r : Record) (offset : Nat) : (r.field offset).length ≤ 63 := by
  unfold Record.field Record.string
  split
  · exact Nat.zero_le 63
  · exact List.length_take_le _ _

/-- A string in a file of its own, with a line end. -/
theorem file_line {s : CStr} (hs : s.length ≤ 63) : (obPutc (obPuts ⟨contentMax, []⟩ s) 10).b = s ++ [10] := by
  have hroom : ([] : CStr).length + s.length < contentMax := by
    rw [List.length_nil, contentMax]
    omega
  have hend : s.length + 1 < contentMax := by
    rw [contentMax]
    omega
  have hputs : obPuts ⟨contentMax, []⟩ s = ⟨contentMax, [] ++ s⟩ := obPuts_room hroom
  rw [hputs, List.nil_append, obPutc, if_pos hend]

/-- **The maker in the file.**  With a table as it should be below 1 MiB, the files
`sys_vendor`, `product_name` and `product_version` have the strings of its first
structure of type 1. -/
theorem dmi_files_show_strings {mem : Nat → UInt8} {k addr : Nat} {before after : List Record} {sys : Record}
    (h : FirmwareAt mem k addr (before ++ sys :: after))
    (hbefore : ∀ r ∈ before, r.WellFormed ∧ r.type ≠ 127 ∧ ¬r.IsSystem) (hwf : sys.WellFormed) (hsys : sys.IsSystem)
    (hfew : before.length < 48) (info : SysInfo) (tasks : List TaskInfo) {slot : Nat} (hslot : slot < sysFiles.length) :
    synthContent (sysinfoInit info mem) tasks (.sysFile slot) = some (sys.field (slot + 4) ++ [10]) := by
  have hread : dmiInfo mem = ⟨sys.field 4, sys.field 5, sys.field 6⟩ := by
    rw [dmiInfo, h.read hbefore hwf hsys hfew]
    rfl
  unfold synthContent sysGenFile sysinfoInit
  rw [hread]
  match slot, hslot with
  | 0, _ => exact congrArg some (file_line (sys.length_field 4))
  | 1, _ => exact congrArg some (file_line (sys.length_field 5))
  | 2, _ => exact congrArg some (file_line (sys.length_field 6))

def biosRecord : Record := ⟨0, [0, 0], [str "SeaBIOS"]⟩

def systemRecord : Record := ⟨1, [0, 1, 1, 2, 0, 0], [str "QEMU", str "Standard PC"]⟩

def endRecord : Record := ⟨127, [0, 2], []⟩

/-- The 31 bytes of an entry point, with a table at 0xF0100. -/
def qemuEntry : List UInt8 :=
  [95, 83, 77, 95, 0, 31, 2, 8, 0, 0, 0, 0, 0, 0, 0, 0, 95, 68, 77, 73, 95, 0, 0, 0, 0, 1, 15, 0, 3, 0, 40]

def qemuMemory (a : Nat) : UInt8 :=
  if a < 0xF0010 then 0
  else if a < 0xF0100 then qemuEntry.getD (a - 0xF0010) 0
  else ([biosRecord, systemRecord, endRecord].flatMap Record.encode).getD (a - 0xF0100) 0

/-- `QEMU` and `Standard PC`; this system has no version. -/
theorem qemu_in_files :
    synthContent (sysinfoInit quietKernel qemuMemory) [] (.sysFile 0) = some (str "QEMU\n") ∧
      synthContent (sysinfoInit quietKernel qemuMemory) [] (.sysFile 1) = some (str "Standard PC\n") ∧
      synthContent (sysinfoInit quietKernel qemuMemory) [] (.sysFile 2) = some (str "\n") := by
  have hfirmware : FirmwareAt qemuMemory 1 0xF0100 ([biosRecord] ++ systemRecord :: [endRecord]) :=
    { inArea := by decide
      anchored := by unfold HoldsAt; decide +kernel
      first := by unfold HoldsAt; decide +kernel
      length := by decide +kernel
      address := by decide +kernel
      low := by decide
      table := by unfold HoldsAt; decide +kernel }
  have hbefore : ∀ r ∈ [biosRecord], r.WellFormed ∧ r.type ≠ 127 ∧ ¬r.IsSystem :=
    List.forall_mem_singleton.mpr ⟨⟨by decide, by decide, by decide⟩, by decide, fun h => absurd h.1 (by decide)⟩
  have hwf : systemRecord.WellFormed := ⟨by decide, by decide, by decide⟩
  have hfile {slot : Nat} (hslot : slot < sysFiles.length) :=
    dmi_files_show_strings hfirmware hbefore hwf ⟨rfl, by decide⟩ (by decide) quietKernel [] hslot
  exact ⟨(hfile (by decide)).trans (by decide), (hfile (by decide)).trans (by decide),
    (hfile (by decide)).trans (by decide)⟩

/-! ## Whatever is there -/

/-- From `lo` on and below `hi` these memories are the same. -/
def Agree (lo hi : Nat) (mem mem' : Nat → UInt8) : Prop := ∀ a, lo ≤ a → a < hi → mem a = mem' a

section Agree

variable {mem mem' : Nat → UInt8} {lo hi : Nat}

theorem Agree.within {lo' hi' : Nat} (h : Agree lo hi mem mem') (hlo : lo ≤ lo') (hhi : hi' ≤ hi) :
    Agree lo' hi' mem mem' :=
  fun a ha hb => h a (Nat.le_trans hlo ha) (Nat.lt_of_lt_of_le hb hhi)

theorem memString_congr {a n : Nat} (h : Agree a (a + n) mem mem') (hword : a + n ≤ 4294967296) :
    memString mem a n = memString mem' a n := by
  induction n generalizing a with
  | zero => rfl
  | succ n ih =>
      have haddr : u32 a = a := u32_of_lt (by omega)
      rw [memString, memString, haddr, h a (Nat.le_refl a) (by omega), ih (h.within (by omega) (by omega)) (by omega)]

theorem findString_congr {idx n a cur : Nat} (h : Agree a (a + n + 63) mem mem') (hword : a + n + 63 ≤ 4294967296) :
    findString mem idx n a cur = findString mem' idx n a cur := by
  induction n generalizing a cur with
  | zero => rfl
  | succ n ih =>
      have hstring := memString_congr (h.within (Nat.le_refl a) (by omega : a + 63 ≤ a + (n + 1) + 63)) (by omega)
      rw [findString, findString, h a (Nat.le_refl a) (by omega), h (a + 1) (by omega) (by omega), hstring,
        ih (h.within (by omega) (by omega)) (by omega)]

theorem dmiCopyString_congr {table len : Nat} (h : Agree table (table + len + 319) mem mem')
    (hword : table + len + 319 ≤ 4294967296) (idx : Nat) :
    dmiCopyString mem table len idx = dmiCopyString mem' table len idx := by
  unfold dmiCopyString
  rw [findString_congr (h.within (by omega) (by omega)) (by omega)]

theorem skipStrings_congr {n t : Nat} (h : Agree t (t + n + 1) mem mem') : skipStrings mem n t = skipStrings mem' n t := by
  induction n generalizing t with
  | zero => rfl
  | succ n ih =>
      rw [skipStrings, skipStrings, h t (Nat.le_refl t) (by omega), h (t + 1) (by omega) (by omega),
        ih (h.within (by omega) (by omega))]

theorem skipStrings_range (mem : Nat → UInt8) (n t : Nat) : t ≤ skipStrings mem n t ∧ skipStrings mem n t ≤ t + n := by
  induction n generalizing t with
  | zero => exact ⟨Nat.le_refl t, Nat.le_refl t⟩
  | succ n ih =>
      have hnext := ih (t + 1)
      rw [skipStrings]
      split
      · omega
      · omega

/-- A structure has no more than 578 bytes, or the walk is over. -/
theorem walkTable_congr {fuel t : Nat} (h : Agree t (t + 578 * fuel) mem mem') (hword : t + 578 * fuel ≤ 4294967296) :
    walkTable mem fuel t = walkTable mem' fuel t := by
  induction fuel generalizing t with
  | zero => rfl
  | succ fuel ih =>
      rw [Nat.mul_succ, ← Nat.add_assoc] at h hword
      have hbyte {i : Nat} (hi : i < 578) : mem (t + i) = mem' (t + i) := h (t + i) (by omega) (by omega)
      have hfirst : mem t = mem' t := hbyte (i := 0) (by omega)
      rw [walkTable, walkTable, hbyte (by omega), hbyte (by omega), hbyte (by omega), hbyte (by omega), hfirst]
      generalize (mem' (t + 1)).toNat = len
      by_cases hlen : len < 4 ∨ len > 64
      · rw [if_pos hlen, if_pos hlen]
      rw [if_neg hlen, if_neg hlen]
      have hstrings : Agree t (t + len + 319) mem mem' := h.within (Nat.le_refl t) (by omega)
      have htexts : Agree (t + len) (t + len + 512 + 1) mem mem' := h.within (by omega) (by omega)
      have hrange := skipStrings_range mem' 512 (t + len)
      have hnext := ih (h.within (by omega) (by omega) :
        Agree (skipStrings mem' 512 (t + len) + 2) (skipStrings mem' 512 (t + len) + 2 + 578 * fuel) mem mem') (by omega)
      rw [dmiCopyString_congr hstrings (by omega), dmiCopyString_congr hstrings (by omega),
        dmiCopyString_congr hstrings (by omega), skipStrings_congr htexts, hnext]

theorem findSome_congr {α β : Type} {f g : α → Option β} {xs : List α} (h : ∀ x ∈ xs, f x = g x) :
    xs.findSome? f = xs.findSome? g := by
  induction xs with
  | nil => rfl
  | cons x xs ih =>
      obtain ⟨hx, hrest⟩ := List.forall_mem_cons.mp h
      rw [List.findSome?_cons, List.findSome?_cons, hx, ih hrest]

theorem wordAt_congr {a : Nat} (h : Agree a (a + 4) mem mem') : wordAt mem a = wordAt mem' a := by
  unfold wordAt
  rw [h a (Nat.le_refl a) (by omega), h (a + 1) (by omega) (by omega), h (a + 2) (by omega) (by omega),
    h (a + 3) (by omega) (by omega)]

/-- No entry point is longer than 31 bytes, and 28 of them are looked at. -/
theorem entryPoint_congr {e : Nat} (h : Agree e (e + 28) mem mem') : entryPoint mem e = entryPoint mem' e := by
  have haddr := wordAt_congr (h.within (by omega : e ≤ e + 0x18) (by omega))
  unfold entryPoint
  rw [haddr, h e (Nat.le_refl e) (by omega), h (e + 1) (by omega) (by omega), h (e + 2) (by omega) (by omega),
    h (e + 3) (by omega) (by omega), h (e + 5) (by omega) (by omega)]

theorem entryPoint_low {e addr : Nat} (h : entryPoint mem e = some addr) : 0x400 ≤ addr ∧ addr < 0x100000 := by
  unfold entryPoint at h
  split at h
  · exact absurd h nofun
  split at h
  · exact absurd h nofun
  split at h
  · exact absurd h nofun
  · rename_i hlow
    obtain rfl := Option.some.inj h
    omega

end Agree

/-- **Nothing above.**  Whatever the lengths, the numbers of the strings and the address in
the entry point are, only bytes from 0x400 to 0x107000 matter. -/
theorem dmi_reads_low_memory {mem mem' : Nat → UInt8} (h : Agree 0x400 0x107000 mem mem') :
    readDmi mem = readDmi mem' := by
  have hentry : ∀ k ∈ List.range 4096, entryPoint mem (0xF0000 + 16 * k) = entryPoint mem' (0xF0000 + 16 * k) := by
    intro k hk
    have hlast := List.mem_range.mp hk
    exact entryPoint_congr (h.within (by omega) (by omega))
  have htable : ∀ addr,
      ((List.range 4096).findSome? fun k => entryPoint mem' (0xF0000 + 16 * k)) = some addr →
        walkTable mem 48 addr = walkTable mem' 48 addr := by
    intro addr hfound
    obtain ⟨k, -, hk⟩ := List.exists_of_findSome?_eq_some hfound
    have hlow := entryPoint_low hk
    exact walkTable_congr (h.within hlow.1 (by omega)) (by omega)
  unfold readDmi
  rw [findSome_congr hentry]
  exact Option.bind_congr htable

/-- Ones from 0x107000 on. -/
theorem qemu_below_ones : readDmi (fun a => if a < 0x107000 then qemuMemory a else 255) = readDmi qemuMemory :=
  dmi_reads_low_memory fun _ _ hhigh => if_pos hhigh

end LiteBSD.Smbios
