/-
# `LiteBSD.Execve.Ranges` — what user memory a call may be given

`scheduler_user_range_valid` accepts a range that lies in one window of the
task; `syscall_string_valid` and `exec_user_strlen` ask it for each byte of a
string.  The two ways to ask agree for the windows that are compared at both
ends:

| window | compared |
| `0x07000000 .. 0x09000000` | `start`, `end` |
| `heap_start .. heap_end` | `start`, `end` |
| `user_stack_base .. + 65536` | `start`, `end` |
| below `0x1000000` | `start` |

The last one lets a range run out of low memory into whatever comes next,
which the bytes by themselves are not allowed to (`range_agrees_iff`).
-/
import LiteBSD.Execve.Failure

namespace LiteBSD.Execve

/-- Where low memory ends. -/
def lowEnd : Nat := 0x1000000

/-- The windows that are compared at both ends. -/
def windows (s : State) (t : Task) : List (Nat × Nat) :=
  (0x07000000, 0x09000000) :: ((if t.heapStart ≠ 0 then [(t.heapStart, t.heapEnd)] else []) ++
    t.userStackBase.toList.map fun b => (s.place.addr b, u32 (s.place.addr b + 65536)))

/-- The byte is in one of these. -/
def Owned (s : State) (t : Task) (b : Nat) : Prop := ∃ w ∈ windows s t, w.1 ≤ b ∧ b < w.2

section Ranges

variable {s : State} {t : Task} {p n b : Nat}

theorem mem_windows {w : Nat × Nat} : w ∈ windows s t ↔
    w = (0x07000000, 0x09000000) ∨ (t.heapStart ≠ 0 ∧ w = (t.heapStart, t.heapEnd)) ∨
      ∃ b, t.userStackBase = some b ∧ w = (s.place.addr b, u32 (s.place.addr b + 65536)) := by
  rw [windows, List.mem_cons, List.mem_append, List.mem_map]
  refine or_congr Iff.rfl (or_congr ?_ ?_)
  · split
    · rename_i hheap
      simp [hheap]
    · rename_i hheap
      simp [hheap]
  · simp only [Option.mem_toList, eq_comm]

/-- What the validator accepts. -/
theorem rangeValid_iff : schedulerUserRangeValid s t p n = true ↔
    (t.user = true ∧ p ≠ 0) ∧ p ≤ u32 (p + n) ∧
      ((∃ w ∈ windows s t, w.1 ≤ p ∧ u32 (p + n) ≤ w.2) ∨ p < lowEnd) := by
  unfold schedulerUserRangeValid
  dsimp only
  split
  · rename_i hnone
    refine iff_of_false nofun fun h => ?_
    rcases hnone with hnone | hnone
    · rw [h.1.1] at hnone
      cases hnone
    · exact h.1.2 hnone
  rename_i hsome
  have huser : t.user = true ∧ p ≠ 0 := by simpa using hsome
  rw [and_iff_right huser]
  split
  · rename_i hwrap
    exact iff_of_false nofun fun h => absurd h.1 (Nat.not_le.mpr hwrap)
  rename_i hwrap
  rw [and_iff_right (Nat.le_of_not_lt hwrap)]
  split
  · rename_i himage
    exact iff_of_true rfl (.inl ⟨_, mem_windows.mpr (.inl rfl), himage⟩)
  rename_i himage
  split
  · rename_i hheap
    exact iff_of_true rfl (.inl ⟨_, mem_windows.mpr (.inr (.inl ⟨hheap.1, rfl⟩)), hheap.2⟩)
  rename_i hheap
  split
  · rename_i hstack
    refine iff_of_true rfl (.inl ?_)
    cases hbase : t.userStackBase with
    | none =>
        rw [hbase] at hstack
        cases hstack
    | some base =>
        rw [hbase] at hstack
        exact ⟨_, mem_windows.mpr (.inr (.inr ⟨base, hbase, rfl⟩)), of_decide_eq_true hstack⟩
  rename_i hstack
  rw [decide_eq_true_iff]
  constructor
  · exact .inr
  · rintro (⟨w, hw, hin⟩ | hlow)
    · rcases mem_windows.mp hw with rfl | ⟨hne, rfl⟩ | ⟨base, hbase, rfl⟩
      · exact absurd hin himage
      · exact absurd ⟨hne, hin⟩ hheap
      · exact absurd (by rw [hbase]; exact decide_eq_true hin) hstack
    · exact hlow

/-- What it accepts of single bytes: the union of the windows. -/
theorem byteValid_iff (hb : b + 1 < 4294967296) : schedulerUserRangeValid s t b 1 = true ↔
    (t.user = true ∧ b ≠ 0) ∧ (Owned s t b ∨ b < lowEnd) := by
  rw [rangeValid_iff, u32_of_lt hb]
  refine and_congr_right fun _ => ?_
  rw [and_iff_right (Nat.le_succ b)]
  exact or_congr Iff.rfl Iff.rfl

/-- A range and its bytes: they agree exactly if the range does not run out of
low memory to a byte that is in no window. -/
theorem range_agrees_iff (hu : t.user = true) (hp : p < 4294967296) (hn : 1 ≤ n) (hword : n < 4294967296) :
    (schedulerUserRangeValid s t p n = true → ∀ i < n, schedulerUserRangeValid s t (u32 (p + i)) 1 = true ∧
      (Owned s t (u32 (p + i)) ∨ u32 (p + i) < lowEnd)) ↔
    (p ≠ 0 → p < lowEnd → p + n < 4294967296 → ∀ b, lowEnd ≤ b → b < p + n → Owned s t b) := by
  have hbyte : p + n < 4294967296 → p ≠ 0 → ∀ i < n, (schedulerUserRangeValid s t (u32 (p + i)) 1 = true ∧
      (Owned s t (u32 (p + i)) ∨ u32 (p + i) < lowEnd)) ↔ (Owned s t (p + i) ∨ p + i < lowEnd) := by
    intro hend hne i hi
    rw [u32_of_lt (by omega), byteValid_iff (by omega)]
    have hboth : t.user = true ∧ p + i ≠ 0 := ⟨hu, by omega⟩
    rw [and_iff_right hboth, and_self]
  rw [rangeValid_iff]
  constructor
  · intro hvalid hne hlow hend b hb hlt
    have hrange : p ≤ u32 (p + n) := by
      rw [u32_of_lt hend]
      omega
    have := (hbyte hend hne (b - p) (by omega)).mp (hvalid ⟨⟨hu, hne⟩, hrange, .inr hlow⟩ (b - p) (by omega))
    rw [Nat.add_sub_cancel' (by omega)] at this
    exact this.resolve_right (Nat.not_lt.mpr hb)
  · rintro hout ⟨⟨_, hne⟩, hrange, hwin⟩ i hi
    have hend : p + n < 4294967296 := by
      unfold u32 at hrange
      omega
    rw [hbyte hend hne i hi]
    rcases Nat.lt_or_ge (p + i) lowEnd with hlow | hhigh
    · exact .inr hlow
    · refine .inl ?_
      rcases hwin with ⟨w, hw, hlo, hhi⟩ | hlow
      · rw [u32_of_lt hend] at hhi
        exact ⟨w, hw, by omega, by omega⟩
      · exact hout hne hlow hend (p + i) hhigh (by omega)

end Ranges

/-! ## Two tasks -/

def bareMachine : State := machineOf (emptyVfs (memoryOf 7) none) []

/-- A task with a heap, and with its stack in the block `b`. -/
def stackedTask (b : Nat) : Task :=
  { bareTask with heapStart := 0xA000000, heapEnd := 0xA010000, userStackBase := some b }

/-- The last byte of low memory with the one behind it, both in the stack. -/
theorem stack_range_agrees : schedulerUserRangeValid bareMachine (stackedTask 767) (lowEnd - 1) 2 = true ∧
    schedulerUserRangeValid bareMachine (stackedTask 767) lowEnd 1 = true := by
  have hvalid : schedulerUserRangeValid bareMachine (stackedTask 767) (lowEnd - 1) 2 = true := by decide
  refine ⟨hvalid, ?_⟩
  have hagrees :=
    (@range_agrees_iff bareMachine (stackedTask 767) (lowEnd - 1) 2 rfl (by decide) (by decide) (by decide)).mpr
  refine (hagrees (fun _ _ _ b hb hlt => ?_) hvalid 1 (by decide)).1
  have hstack : bareMachine.place.addr 767 ≤ lowEnd ∧ lowEnd < u32 (bareMachine.place.addr 767 + 65536) := by decide
  obtain rfl : b = lowEnd := Nat.le_antisymm (Nat.lt_succ_iff.mp hlt) hb
  exact ⟨_, mem_windows.mpr (.inr (.inr ⟨767, rfl, rfl⟩)), hstack⟩

/-- The stack is elsewhere. -/
theorem low_range_runs_out : ¬∀ s t p n, t.user = true → p < 4294967296 → 1 ≤ n → n < 4294967296 →
    schedulerUserRangeValid s t p n = true → ∀ i < n, schedulerUserRangeValid s t (u32 (p + i)) 1 = true := by
  intro hall
  have h := hall bareMachine (stackedTask 7) (lowEnd - 1) 2 rfl (by decide) (by decide) (by decide) (by decide) 1
    (by decide)
  exact absurd h (by decide)

end LiteBSD.Execve
