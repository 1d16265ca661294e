/-
# `LiteBSD.Initrd.Archive` — what it is for memory to hold an archive

An archive is a list of entries, and `ArchiveAt` says that memory holds it
from an address on, each entry as

    512 bytes   the header: the name, the size in octal digits, the type and
                the name of a link's target, at their places; the prefix is
                empty, and nothing is said of the other fields
    the data    filled up to a multiple of 512 bytes

with a block that begins with a zero behind the last one.  What the loop reads
from such a header is the entry (`HeaderAt.decoded`).
-/
import LiteBSD.Lib.Memory
import LiteBSD.Initrd.Range
import LiteBSD.Initrd.Names

namespace LiteBSD

open Lib

/-- A file, a directory, a link or something else, as the header has it. -/
structure TarEntry where
  name : CStr
  type : UInt8
  linkname : CStr
  data : List UInt8
deriving DecidableEq, Repr

namespace TarEntry

variable (e : TarEntry)

def names : List CStr := entryNames e.name

def path : CStr := dirPath e.names

def isDir : Bool := isDirType e.type

def isFile : Bool := isFileType e.type

def isLink : Bool := isLinkType e.type

/-- The entry makes a node that holds data. -/
def holdsData : Bool := e.isFile || e.isLink

/-- The name is a text that fits its field, of proper names, and ends in a
slash at most for a directory; that of a link's target is such a text, too. -/
structure WellFormed : Prop where
  name_ne : e.name ≠ []
  name_text : 0 ∉ e.name
  name_fits : e.name.length < 100
  proper : ∀ name ∈ e.names, ProperName name
  open_end : e.isDir = false → e.name.getLast? ≠ some slash
  link_text : e.isLink = true → 0 ∉ e.linkname
  link_fits : e.isLink = true → e.linkname.length < 100

end TarEntry

/-- The number that octal digits stand for, behind those that make `n`. -/
def octalFrom (n : Nat) : List UInt8 → Nat
  | [] => n
  | b :: s => octalFrom (n * 8 + (b.toNat - 48)) s

/-- A field of 12 bytes: octal digits for `n`, then zeros or blanks. -/
def OctalField (field : List UInt8) (n : Nat) : Prop :=
  ∃ digits fill, field = digits ++ fill ∧ field.length = 12 ∧ fill ≠ [] ∧ (∀ b ∈ digits, 48 ≤ b ∧ b ≤ 55) ∧
    (∀ b ∈ fill, b = 0 ∨ b = 32) ∧ octalFrom 0 digits = n

/-- `offsetof(tar_header_t, prefix)` -/
def tarPrefix : Nat := 345

/-- The header at `addr` and what is behind it are those of the entry. -/
structure HeaderAt (mem : Nat → UInt8) (addr : Nat) (e : TarEntry) : Prop where
  name : HoldsAt mem addr (e.name ++ [0])
  size : ∃ field, HoldsAt mem (addr + tarSize) field ∧ OctalField field e.data.length
  type : mem (addr + tarTypeflag) = e.type
  linkname : e.isLink = true → HoldsAt mem (addr + tarLinkname) (e.linkname ++ [0])
  noPrefix : mem (addr + tarPrefix) = 0
  data : HoldsAt mem (addr + 512) e.data

/-- The bytes that the data takes up. -/
def TarEntry.room (e : TarEntry) : Nat := (e.data.length + 511) / 512 * 512

/-- Memory holds these entries from `addr` on, within what ends at `stop`. -/
def ArchiveAt (mem : Nat → UInt8) (stop : Nat) : Nat → List TarEntry → Prop
  | addr, [] => mem addr = 0 ∧ addr + 512 ≤ stop
  | addr, e :: es =>
      HeaderAt mem addr e ∧ addr + 512 + e.data.length ≤ stop ∧ ArchiveAt mem stop (addr + 512 + e.room) es

/-! ## Reading -/

section Reading

variable {mem : Nat → UInt8} {a n : Nat} {s : CStr}

/-- A string with a NUL behind it, or the first bytes of it. -/
theorem memString_take (h : HoldsAt mem a (s ++ [0])) (htext : 0 ∉ s) (hword : a + s.length < 4294967296) (n : Nat) :
    memString mem a n = s.take n := by
  induction s generalizing a n with
  | nil =>
    rw [List.take_nil]
    cases n with
    | zero => rfl
    | succ n =>
      have hzero : mem a = 0 := (holdsAt_cons.mp h).1
      have haddr : u32 a = a := u32_of_lt hword
      rw [memString, haddr, if_pos hzero]
  | cons b s ih =>
    obtain ⟨hb, hrest⟩ := holdsAt_cons.mp h
    rw [List.length_cons] at hword
    have hne : mem a ≠ 0 := fun hzero => htext (List.mem_cons.mpr (.inl (hzero.symm.trans hb)))
    cases n with
    | zero => rfl
    | succ n =>
      rw [memString, u32_of_lt (by omega), if_neg hne, hb,
        ih hrest (fun hs => htext (List.mem_cons_of_mem _ hs)) (by omega), List.take_succ_cons]

theorem memString_holdsAt (h : HoldsAt mem a (s ++ [0])) (htext : 0 ∉ s) (hword : a + s.length < 4294967296)
    (hn : s.length < n) : memString mem a n = s := by
  rw [memString_take h htext hword, List.take_of_length_le (Nat.le_of_lt hn)]

theorem memBytes_holdsAt {xs : List UInt8} (h : HoldsAt mem a xs) (hword : a + xs.length ≤ 4294967296)
    (hn : n ≤ xs.length) : memBytes mem a n = xs.take n := by
  refine List.ext_getElem? fun i => ?_
  unfold memBytes
  rw [List.getElem?_map]
  by_cases hi : i < n
  · rw [List.getElem?_range hi, List.getElem?_take_of_lt hi, h i (by omega), Option.map_some, u32_of_lt (by omega)]
  · rw [List.getElem?_eq_none (by rw [List.length_range]; omega), List.getElem?_eq_none (by rw [List.length_take]; omega)]
    rfl

/-- Modulo `2^32`, digits do not see what the ones in front lost. -/
theorem octalFrom_congr {m : Nat} (h : u32 n = u32 m) (digits : List UInt8) :
    u32 (octalFrom n digits) = u32 (octalFrom m digits) := by
  induction digits generalizing n m with
  | nil => exact h
  | cons b digits ih =>
    refine ih ?_
    unfold u32 at h ⊢
    omega

/-- What is behind the digits adds nothing. -/
theorem octToInt_fill {fill : List UInt8} (hfill : ∀ b ∈ fill, b = 0 ∨ b = 32) : octToInt n fill = n := by
  induction fill with
  | nil => rfl
  | cons b fill ih =>
    rw [octToInt]
    rcases hfill b List.mem_cons_self with rfl | rfl
    · rw [if_pos rfl]
    · rw [if_neg (by decide), if_neg (by decide)]
      exact ih fun c hc => hfill c (List.mem_cons_of_mem _ hc)

theorem octToInt_digits {digits fill : List UInt8} (hdigits : ∀ b ∈ digits, 48 ≤ b ∧ b ≤ 55)
    (hfill : ∀ b ∈ fill, b = 0 ∨ b = 32) (hn : n < 4294967296) :
    octToInt n (digits ++ fill) = u32 (octalFrom n digits) := by
  induction digits generalizing n with
  | nil => exact (octToInt_fill hfill).trans (u32_of_lt hn).symm
  | cons b digits ih =>
    have hb := hdigits b List.mem_cons_self
    have hne : b ≠ 0 := by
      rintro rfl
      exact absurd hb.1 (by decide)
    have hword : u32 (n * 8 + (b.toNat - 48)) < 4294967296 := Nat.mod_lt _ (by decide)
    rw [List.cons_append, octToInt, if_neg hne, if_pos hb,
      ih (fun c hc => hdigits c (List.mem_cons_of_mem _ hc)) hword]
    exact octalFrom_congr (Nat.mod_mod _ _) digits

/-- The size field is read back. -/
theorem OctalField.read {field : List UInt8} (h : OctalField field n) (hn : n < 4294967296) :
    octToInt 0 (field.take 11) = n := by
  obtain ⟨digits, fill, rfl, hlen, hfill, hdigits, hblank, hvalue⟩ := h
  have hpos := List.length_pos_iff.mpr hfill
  rw [List.length_append] at hlen
  rw [List.take_append, List.take_of_length_le (by omega),
    octToInt_digits hdigits (fun b hb => hblank b (List.mem_of_mem_take hb)) (by decide), hvalue, u32_of_lt hn]

end Reading

/-! ## One header -/

/-- What the loop reads at `addr` is the entry. -/
structure Decoded (mem : Nat → UInt8) (stop addr : Nat) (e : TarEntry) : Prop where
  there : headerAt mem stop addr = true
  name : memCStr mem addr = e.name
  type : headerType mem addr = e.type
  data : dataRange mem stop addr = if e.isFile = true ∧ e.data ≠ [] then some (addr + 512, e.data.length) else none
  bytes : memBytes mem (addr + 512) e.data.length = e.data
  linkname : e.isLink = true → memCStr mem (addr + tarLinkname) = e.linkname
  next : nextHeader mem addr = addr + 512 + e.room

section Headers

variable {mem : Nat → UInt8} {stop addr : Nat} {e : TarEntry} {es : List TarEntry}

theorem HeaderAt.decoded (h : HeaderAt mem addr e) (hwf : e.WellFormed) (hroom : addr + 512 + e.data.length ≤ stop)
    (hstop : stop < 4294967296) (hnext : addr + 512 + e.room < 4294967296) : Decoded mem stop addr e := by
  obtain ⟨field, hfield, hoctal⟩ := h.size
  have hlen : field.length = 12 := by
    obtain ⟨_, _, _, hlen, _⟩ := hoctal
    exact hlen
  have hsize : headerSizeField mem addr = e.data.length := by
    have hfits : addr + tarSize + field.length ≤ 4294967296 := by
      rw [hlen, tarSize]
      omega
    rw [headerSizeField, memBytes_holdsAt hfield hfits (by omega)]
    exact hoctal.read (by omega)
  have htype : headerType mem addr = e.type := by
    rw [headerType, tarTypeflag, u32_of_lt (by omega)]
    exact h.type
  have hword : u32 (addr + 512 + e.data.length) = addr + 512 + e.data.length := u32_of_lt (by omega)
  have hdata : u32 (addr + 512) = addr + 512 := u32_of_lt (by omega)
  refine ⟨?_, ?_, htype, ?_, ?_, fun hlink => ?_, ?_⟩
  · have hfirst : mem addr ≠ 0 := by
      have hname := h.name
      have htext := hwf.name_text
      obtain ⟨b, name, hcons⟩ := List.exists_cons_of_ne_nil hwf.name_ne
      rw [hcons] at hname htext
      rw [(holdsAt_cons.mp hname).1]
      exact fun hzero => htext (List.mem_cons.mpr (.inl hzero.symm))
    rw [headerAt, hdata, u32_of_lt (by omega : addr < 4294967296)]
    exact decide_eq_true ⟨by omega, hfirst⟩
  · have hshort := hwf.name_fits
    exact memString_holdsAt h.name hwf.name_text (by omega) (by omega)
  · unfold dataRange
    dsimp only
    rw [htype, hsize, hword, hdata, ← TarEntry.isFile]
    have hpos : e.data.length > 0 ↔ e.data ≠ [] := List.length_pos_iff
    by_cases hcond : e.isFile = true ∧ e.data ≠ []
    · rw [if_pos hcond, if_pos ⟨hcond.1, hpos.mpr hcond.2, hroom⟩]
    · rw [if_neg hcond, if_neg fun hc => hcond ⟨hc.1, hpos.mp hc.2.1⟩]
  · rw [memBytes_holdsAt h.data (by omega) (Nat.le_refl _), List.take_length]
  · have hshort := hwf.link_fits hlink
    exact memString_holdsAt (h.linkname hlink) (hwf.link_text hlink) (by rw [tarLinkname]; omega) (by omega)
  · have hround : e.data.length + 511 < 4294967296 := by
      unfold TarEntry.room at hnext
      omega
    rw [nextHeader_eq, dataBlocks, hsize, u32_of_lt hround]
    exact u32_of_lt hnext

/-- The loop ends at the block behind the last entry. -/
theorem ArchiveAt.end (h : ArchiveAt mem stop addr []) (hstop : stop < 4294967296) : headerAt mem stop addr = false := by
  obtain ⟨hzero, hroom⟩ := h
  have haddr : u32 addr = addr := u32_of_lt (by omega)
  rw [headerAt, haddr]
  exact decide_eq_false fun hc => hc.2 hzero

/-- There are not more entries than there is room for their headers. -/
theorem ArchiveAt.room (h : ArchiveAt mem stop addr es) : addr + 512 * es.length + 512 ≤ stop := by
  induction es generalizing addr with
  | nil => exact h.2
  | cons e es ih =>
    have hrest := ih h.2.2
    rw [List.length_cons]
    omega

end Headers

end LiteBSD
