/-
# `LiteBSD.Sched.WalkEnds` — the walk along any chain comes to an end

The program decides what is on the stack that is copied.  Its chain may be a
cycle, and when the words of it overlap, each one that is shifted changes
others, which may then point into the old stack again.  Nothing counts the
rounds.

But every word that is shifted moves by the same distance, the one from the
old stack to the new one.  Read the copy as one number, lowest byte first: a
round adds the distance times a power of 256, whichever word it shifts, so
that the number climbs, or falls, from the first round to the last.
-/
import LiteBSD.Lib.Numeral
import LiteBSD.Sched.Frames

namespace LiteBSD.Frames

open Lib

/-- The stack and its copy, anywhere in memory. -/
structure DisjointStacks (t : Stacks) (ustack : Nat) : Prop where
  size : 0 < sub32 t.userStackTop t.userStackBase ∧ sub32 t.userStackTop t.userStackBase ≤ 65536
  words : t.userStackBase < 4294967296 ∧ t.userStackTop < 4294967296
  parent : t.userStackBase + sub32 t.userStackTop t.userStackBase ≤ 4294967296
  copy : ustack + sub32 t.userStackTop t.userStackBase ≤ 4294967296
  apart : t.userStackBase + sub32 t.userStackTop t.userStackBase ≤ ustack ∨
    ustack + sub32 t.userStackTop t.userStackBase ≤ t.userStackBase

/-- `n` bytes from `a` on, as one number. -/
def blockNumber (mem : Bytes) (a n : Nat) : Nat := numeral 256 (fun i => (mem (u32 (a + i))).toNat) n

section Walk

variable {t : Stacks} {mem : Bytes} {ustack size a k n w cur val : Nat}

theorem le32_eq_ofDigits (b₀ b₁ b₂ b₃ : UInt8) :
    Execve.le32 [b₀, b₁, b₂, b₃] = Nat.ofDigits 256 [b₀.toNat, b₁.toNat, b₂.toNat, b₃.toNat] := by
  simp only [Nat.ofDigits_cons, Nat.ofDigits_nil, Nat.mul_zero, Nat.add_zero]
  rfl

theorem wordAt_eq_blockNumber (mem : Bytes) (a : Nat) : wordAt mem a = blockNumber mem a 4 := by
  have hrange : List.range 4 = [0, 1, 2, 3] := rfl
  rw [wordAt, blockNumber, numeral, hrange, List.map_cons, List.map_cons, List.map_cons, List.map_cons, List.map_nil,
    le32_eq_ofDigits, List.map_cons, List.map_cons, List.map_cons, List.map_cons, List.map_nil]

theorem wordAt_storeWord (mem : Bytes) (ha : a < 4294967296) (hw : w < 4294967296) :
    wordAt (storeWord mem a w) a = w := by
  have hbyte : ∀ j < 4, sub32 (u32 (a + j)) a = j := by
    intro j hj
    unfold sub32 u32
    omega
  have hrange : List.range 4 = [0, 1, 2, 3] := rfl
  rw [wordAt, hrange, List.map_cons, List.map_cons, List.map_cons, List.map_cons, List.map_nil]
  unfold storeWord
  rw [hbyte 0 (by decide), hbyte 1 (by decide), hbyte 2 (by decide), hbyte 3 (by decide)]
  exact Execve.le32_bytes32 hw

/-- A word is what the number of the block is made of there. -/
theorem wordAt_eq_numeral (mem : Bytes) (ustack k : Nat) :
    wordAt mem (u32 (ustack + k)) = numeral 256 (fun i => (mem (u32 (ustack + (k + i)))).toNat) 4 := by
  rw [wordAt_eq_blockNumber]
  refine numeral_congr fun i _ => ?_
  have haddr : u32 (u32 (ustack + k) + i) = u32 (ustack + (k + i)) := by
    unfold u32
    omega
  rw [haddr]

/-- A store leaves the other bytes of the block. -/
theorem storeWord_block {i : Nat} (hn : n ≤ 4294967296) (hk : k + 4 ≤ n) (hi : i < n) (h : i < k ∨ k + 4 ≤ i) :
    storeWord mem (u32 (ustack + k)) w (u32 (ustack + i)) = mem (u32 (ustack + i)) := by
  refine storeWord_far ?_
  unfold sub32 u32
  omega

/-- A word that grows makes the number of the block grow. -/
theorem blockNumber_lt (mem : Bytes) (ustack : Nat) (hn : n ≤ 4294967296) (hk : k + 4 ≤ n) (hw : w < 4294967296)
    (hlt : wordAt mem (u32 (ustack + k)) < w) :
    blockNumber mem ustack n < blockNumber (storeWord mem (u32 (ustack + k)) w) ustack n := by
  refine numeral_lt_of_change (by decide) (fun i hi h => congrArg UInt8.toNat (storeWord_block hn hk hi h)) hk ?_
  have haddr : u32 (ustack + k) < 4294967296 := Nat.mod_lt _ (by decide)
  rw [← wordAt_eq_numeral, ← wordAt_eq_numeral, wordAt_storeWord mem haddr hw]
  exact hlt

/-- And one that shrinks makes it shrink. -/
theorem lt_blockNumber (hn : n ≤ 4294967296) (hk : k + 4 ≤ n) (hw : w < 4294967296)
    (hlt : w < wordAt mem (u32 (ustack + k))) :
    blockNumber (storeWord mem (u32 (ustack + k)) w) ustack n < blockNumber mem ustack n := by
  refine numeral_lt_of_change (by decide) (fun i hi h => congrArg UInt8.toNat (storeWord_block hn hk hi h).symm) hk ?_
  have haddr : u32 (ustack + k) < 4294967296 := Nat.mod_lt _ (by decide)
  rw [← wordAt_eq_numeral, ← wordAt_eq_numeral, wordAt_storeWord mem haddr hw]
  exact hlt

theorem blockNumber_bounded (mem : Bytes) (a n : Nat) : blockNumber mem a n < 256 ^ n :=
  numeral_lt (by decide) fun _ _ => UInt8.toNat_lt _

/-! ## The walk -/

/-- A value that points into the stack, its end included, is shifted to where
it is in the copy, or around the end of memory. -/
theorem DisjointStacks.shift (hd : DisjointStacks t ustack) (hinto : intoStack t val) :
    val - t.userStackBase ≤ sub32 t.userStackTop t.userStackBase ∧
      (ustack + (val - t.userStackBase) < 4294967296 ∧
          u32 (val + sub32 ustack t.userStackBase) = ustack + (val - t.userStackBase) ∨
        0 < ustack ∧ u32 (val + sub32 ustack t.userStackBase) = 0) := by
  obtain ⟨hlow, hhigh⟩ := hinto
  have hbound := hd.size
  have hcopy := hd.copy
  have hwords := hd.words
  have hsub : sub32 t.userStackTop t.userStackBase = t.userStackTop - t.userStackBase :=
    sub32_of_le (Nat.le_trans hlow hhigh) hwords.2
  rw [hsub] at hbound hcopy ⊢
  refine ⟨Nat.sub_le_sub_right hhigh _, ?_⟩
  unfold u32 sub32
  omega

/-- How far the number of the copy can still move the way that the walk moves it. -/
def room (t : Stacks) (ustack n : Nat) (mem : Bytes) : Nat :=
  if t.userStackBase < ustack then 256 ^ n - blockNumber mem ustack n else blockNumber mem ustack n

/-- A round leaves less room, whichever words overlap. -/
theorem room_lt (mem : Bytes) (hd : DisjointStacks t ustack) (hn : n ≤ 4294967296) (hk : k + 4 ≤ n)
    (hinto : intoStack t (wordAt mem (u32 (ustack + k))))
    (hfits : ustack + (wordAt mem (u32 (ustack + k)) - t.userStackBase) < 4294967296) :
    room t ustack n (storeWord mem (u32 (ustack + k))
      (ustack + (wordAt mem (u32 (ustack + k)) - t.userStackBase))) < room t ustack n mem := by
  obtain ⟨hlow, hhigh⟩ := hinto
  have hsize := hd.size.1
  unfold room
  split
  · -- the new stack is above the old one
    have hlt := blockNumber_lt mem ustack hn hk hfits (by omega)
    have hbound := blockNumber_bounded (storeWord mem (u32 (ustack + k))
      (ustack + (wordAt mem (u32 (ustack + k)) - t.userStackBase))) ustack n
    omega
  · have hapart := hd.apart
    exact lt_blockNumber hn hk hfits (by omega)

/-- More rounds do no more. -/
theorem walkEbp_mono {delta fuel fuel' : Nat} {mem' : Bytes} (hle : fuel ≤ fuel')
    (h : walkEbp t ustack size delta fuel mem cur = some mem') :
    walkEbp t ustack size delta fuel' mem cur = some mem' := by
  induction fuel generalizing mem cur fuel' with
  | zero => cases h
  | succ fuel ih =>
      obtain ⟨fuel', rfl⟩ : ∃ n, fuel' = n + 1 := ⟨fuel' - 1, by omega⟩
      rw [walkEbp] at h ⊢
      dsimp only at h ⊢
      split at h
      · rename_i hinside
        rw [if_pos hinside]
        split at h
        · rename_i hinto
          rw [if_pos hinto]
          exact ih (Nat.le_of_succ_le_succ hle) h
        · rename_i hinto
          rw [if_neg hinto]
          exact h
      · rename_i hinside
        rw [if_neg hinside]
        exact h

/-- The walk stops at once, or it shifts a word and goes on. -/
theorem walkEbp_round {delta : Nat} (mem : Bytes) (cur : Nat) :
    walkEbp t ustack size delta 1 mem cur = some mem ∨
      cur ≥ ustack ∧ intoStack t (wordAt mem cur) ∧ ∀ fuel, walkEbp t ustack size delta (fuel + 1) mem cur =
        walkEbp t ustack size delta fuel (storeWord mem cur (u32 (wordAt mem cur + delta)))
          (u32 (wordAt mem cur + delta)) := by
  by_cases hinside : cur ≥ ustack ∧ u32 (cur + 4) ≤ u32 (ustack + size)
  · by_cases hinto : intoStack t (wordAt mem cur)
    · refine .inr ⟨hinside.1, hinto, fun fuel => ?_⟩
      rw [walkEbp, if_pos hinside]
      exact if_pos hinto
    · left
      rw [walkEbp, if_pos hinside]
      exact if_neg hinto
  · left
    rw [walkEbp, if_neg hinside]

theorem walkEbp_zero {delta : Nat} (hpos : 0 < ustack) (mem : Bytes) :
    walkEbp t ustack size delta 1 mem 0 = some mem := by
  rw [walkEbp, if_neg fun h => Nat.not_le.mpr hpos h.1]

/-- The walk comes to an end from every address of the copy, its end included. -/
theorem walkEbp_ends_in_copy (mem : Bytes) (hd : DisjointStacks t ustack) (hlow : ustack ≤ cur)
    (hhigh : cur ≤ ustack + sub32 t.userStackTop t.userStackBase) (hcur : cur < 4294967296) :
    ∃ fuel mem', walkEbp t ustack (sub32 t.userStackTop t.userStackBase) (sub32 ustack t.userStackBase) fuel mem cur =
      some mem' := by
  have hbound := hd.size.2
  generalize hsize : sub32 t.userStackTop t.userStackBase = size at *
  induction hroom : room t ustack (size + 4) mem using Nat.strong_induction_on generalizing mem cur with
  | _ r ih =>
      rcases walkEbp_round mem cur with hstop | ⟨-, hinto, hgo⟩
      · exact ⟨1, mem, hstop⟩
      · obtain ⟨k, rfl⟩ := Nat.exists_eq_add_of_le hlow
        obtain ⟨hoff, hnext⟩ := hd.shift hinto
        rcases hnext with ⟨hfits, hnext⟩ | ⟨hpos, hnext⟩
        · have hless := room_lt mem hd (show size + 4 ≤ 4294967296 by omega) (show k + 4 ≤ size + 4 by omega)
          rw [u32_of_lt hcur] at hless
          obtain ⟨fuel, mem', hend⟩ := ih _ (hroom ▸ hless hinto hfits) _ (Nat.le_add_right _ _) hfits
            (Nat.add_le_add_left (hsize ▸ hoff) _) rfl
          refine ⟨fuel + 1, mem', ?_⟩
          rw [hgo, hnext]
          exact hend
        · refine ⟨2, storeWord mem (ustack + k) 0, ?_⟩
          rw [hgo, hnext]
          exact walkEbp_zero hpos _

/-- And from every other address. -/
theorem walkEbp_ends (hd : DisjointStacks t ustack) (mem : Bytes) (cur : Nat) :
    ∃ fuel mem', walkEbp t ustack (sub32 t.userStackTop t.userStackBase) (sub32 ustack t.userStackBase) fuel mem cur =
      some mem' := by
  rcases walkEbp_round mem cur with hstop | ⟨-, hinto, hgo⟩
  · exact ⟨1, mem, hstop⟩
  · -- the walk is in the copy from the second round on
    obtain ⟨hoff, hnext⟩ := hd.shift hinto
    rcases hnext with ⟨hfits, hnext⟩ | ⟨hpos, hnext⟩
    · obtain ⟨fuel, mem', hend⟩ := walkEbp_ends_in_copy (storeWord mem cur _) hd (Nat.le_add_right _ _)
        (Nat.add_le_add_left hoff _) hfits
      refine ⟨fuel + 1, mem', ?_⟩
      rw [hgo, hnext]
      exact hend
    · refine ⟨2, storeWord mem cur 0, ?_⟩
      rw [hgo, hnext]
      exact walkEbp_zero hpos _

end Walk

/-- For every memory, every frame on any kernel stack and every two blocks for
the user stack and its copy that do not overlap, `fork_task` comes to an end:
there is a number of rounds that the walk does not exceed. -/
theorem fork_walk_ends {t : Stacks} {ustack : Nat} (hd : DisjointStacks t ustack) (m : Bytes) (frame stack task : Nat) :
    ∃ rounds, ∀ fuel, rounds ≤ fuel → ∃ m' child, forkTask fuel m t frame stack task ustack = .ret (m', child) := by
  have hsize : stackSize t = sub32 t.userStackTop t.userStackBase :=
    if_neg fun h => h.elim (Nat.ne_of_gt hd.size.1) (Nat.not_lt.mpr hd.size.2)
  generalize hframe : u32 (stack + sub32 frame t.stackBase) = childFrame
  generalize hmem : copyUserStack (copyKernelStack m t stack childFrame) t frame childFrame ustack
    (sub32 t.userStackTop t.userStackBase) = mem
  obtain ⟨rounds, mem', hwalk⟩ := walkEbp_ends hd mem (wordAt mem (u32 (childFrame + ebpAt)))
  refine ⟨rounds, fun fuel hle => ?_⟩
  rw [forkTask]
  dsimp only
  split
  · exact ⟨_, _, rfl⟩
  split
  · exact ⟨_, _, rfl⟩
  split
  · exact ⟨_, _, rfl⟩
  split
  · exact ⟨_, _, rfl⟩
  split
  · exact ⟨_, _, rfl⟩
  rw [hframe, hsize, hmem, walkEbp_mono hle hwalk]
  exact ⟨_, _, rfl⟩

/-- The frame pointer of the caller is where it is saved itself. -/
def ownCaller : Bytes := storeWord (storeWord (fun _ => 0) (0x500FB4 + ebpAt) 0xFC0F00) 0xFC0F00 0xFC0F00

theorem fork_of_own_caller : wordAt ownCaller 0xFC0F00 = 0xFC0F00 ∧ ∃ rounds, ∀ fuel, rounds ≤ fuel → ∃ m' child,
    forkTask fuel ownCaller ⟨0x500000, 0xFC0000, 0xFC1000⟩ 0x500FB4 0x600000 0x650000 0x700000 =
      .ret (m', child) :=
  ⟨by decide, fork_walk_ends ⟨by decide, by decide, by decide, by decide, by decide⟩ _ _ _ _⟩

end LiteBSD.Frames
