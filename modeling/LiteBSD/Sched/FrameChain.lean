/-
# `LiteBSD.Sched.FrameChain` — the walk along the saved frame pointers

The chain is in the copy what it is in the stack, but what the walk reads and
changes are bytes, and words that begin at any address overlap.  If those of
the chain are all at one residue modulo 4 they do not, and the walk is the one
of `Lib.Relocate` along cells: it comes to an end, and all words of the chain
that pointed into the stack are shifted (`walkEbp_into`).

There is one way into the chain that the source does not mean to open.  Its
test is `cur + 4 <= (uint32_t)new_ustack + stack_size`, and `cur + 4` wraps
around at the end of memory.
-/
import LiteBSD.Lib.Relocate
import LiteBSD.Sched.Frames

namespace LiteBSD.Frames

open Lib

/-! ## The chain of saved frame pointers -/

/-- Where a saved frame pointer leads: it is followed if it is the address of
a word of the stack. -/
def savedEbp (t : Stacks) (val : Nat) : Lead Nat :=
  if intoStack t val then if val + 4 ≤ t.userStackTop then .cell val else .out else .none

/-- The words of the stack that hold the chain from `start` on. -/
def FrameChain (t : Stacks) (mem : Bytes) (start cell : Nat) : Prop :=
  savedEbp t start = .cell start ∧ OnChain (savedEbp t) (wordAt mem) start cell

/-- The chain visits addresses that are congruent modulo 4. -/
def ChainAligned (t : Stacks) (mem : Bytes) (start : Nat) : Prop :=
  ∀ a b, FrameChain t mem start a → FrameChain t mem start b → a % 4 = b % 4

/-- The words of the chain that point into the stack. -/
def Pointing (t : Stacks) (mem : Bytes) (start cell : Nat) : Prop :=
  FrameChain t mem start cell ∧ intoStack t (wordAt mem cell)

/-- The copy at `ustack`, in the memory `mem'`, of the stack in `mem`: the words at
`cells` are shifted, and all else is the same, byte for byte. -/
structure StackCopy (t : Stacks) (ustack : Nat) (cells : Nat → Prop) (mem mem' : Bytes) : Prop where
  shifted : ∀ cell, cells cell →
    wordAt mem' (inCopy t ustack cell) = u32 (wordAt mem cell + sub32 ustack t.userStackBase)
  rest : ∀ x, t.userStackBase ≤ x → x < t.userStackTop → (∀ cell, cells cell → ¬(cell ≤ x ∧ x < cell + 4)) →
    mem' (inCopy t ustack x) = mem x

section Chain

variable {t : Stacks} {mem : Bytes} {val start a b c : Nat}

theorem savedEbp_cell : savedEbp t val = .cell c ↔ t.userStackBase ≤ val ∧ val + 4 ≤ t.userStackTop ∧ c = val := by
  unfold savedEbp
  split
  · rename_i hinto
    have hlow := hinto.1
    split
    · rw [Lead.cell.injEq]
      omega
    · simp only [reduceCtorEq, false_iff]
      omega
  · rename_i hout
    simp only [reduceCtorEq, false_iff]
    rintro ⟨hlow, hhigh, -⟩
    exact hout ⟨hlow, Nat.le_of_add_right_le hhigh⟩

theorem savedEbp_points : (savedEbp t val).points ↔ intoStack t val := by
  unfold savedEbp
  split
  · rename_i hinto
    split
    · exact iff_of_true trivial hinto
    · exact iff_of_true trivial hinto
  · rename_i hout
    exact iff_of_false id hout

theorem FrameChain.bounds (h : FrameChain t mem start c) : t.userStackBase ≤ c ∧ c + 4 ≤ t.userStackTop := by
  obtain ⟨hstart, hchain⟩ := h
  cases hchain with
  | start =>
      obtain ⟨hlow, hhigh, -⟩ := savedEbp_cell.mp hstart
      exact ⟨hlow, hhigh⟩
  | next _ hlink =>
      obtain ⟨hlow, hhigh, rfl⟩ := savedEbp_cell.mp hlink
      exact ⟨hlow, hhigh⟩

end Chain

/-! ## The walk -/

/-- The copy as words at the addresses that are `r` modulo 4: these hold
`vals`, and what is not part of such a word is as in `m`.  Outside of the copy
memory is as in `old`. -/
structure Mirrors (t : Stacks) (ustack r : Nat) (m old : Bytes) (vals : Nat → Nat) (mem : Bytes) : Prop where
  words : ∀ c, t.userStackBase ≤ c → c + 4 ≤ t.userStackTop → c % 4 = r → wordAt mem (inCopy t ustack c) = vals c
  edges : ∀ x, t.userStackBase ≤ x → x < t.userStackTop →
    (∀ c, t.userStackBase ≤ c → c + 4 ≤ t.userStackTop → c % 4 = r → ¬(c ≤ x ∧ x < c + 4)) →
    mem (inCopy t ustack x) = m x
  outside : ∀ x < 4294967296, x < ustack ∨ ustack + (t.userStackTop - t.userStackBase) ≤ x → mem x = old x

section Walk

variable {t : Stacks} {ustack r fuel a val w : Nat} {m old mem : Bytes} {vals vals' : Nat → Nat}

/-- What has been shifted is not an address of the old stack. -/
theorem Placed.shifted_away (hp : Placed t ustack) (hval : savedEbp t val = .cell a) :
    savedEbp t (u32 (val + sub32 ustack t.userStackBase)) = .none := by
  obtain ⟨hlow, hhigh, -⟩ := savedEbp_cell.mp hval
  have hinto : intoStack t val := ⟨hlow, Nat.le_of_add_right_le hhigh⟩
  rw [hp.shift hinto, savedEbp, if_neg]
  rintro ⟨hlow', hhigh'⟩
  have hapart := hp.apart
  unfold inCopy at hlow' hhigh'
  omega

/-- A word of the copy gets a value. -/
theorem Mirrors.store (hp : Placed t ustack) (hm : Mirrors t ustack r m old vals mem) (hlow : t.userStackBase ≤ a)
    (hhigh : a + 4 ≤ t.userStackTop) (har : a % 4 = r) (hw : w < 4294967296) :
    Mirrors t ustack r m old (Function.update vals a w) (storeWord mem (inCopy t ustack a) w) := by
  have htop := hp.high.2
  have hplace : inCopy t ustack a + 4 ≤ 4294967296 := by
    unfold inCopy
    omega
  refine ⟨fun c hc hc' hcr => ?_, fun x hx hx' hnone => ?_, fun x hx hout => ?_⟩
  · by_cases hca : c = a
    · rw [hca, Function.update_self]
      exact wordAt_storeWord_self hplace hw
    · -- words of one residue do not overlap
      rw [Function.update_of_ne hca, ← hm.words c hc hc' hcr]
      unfold inCopy at hplace ⊢
      exact wordAt_storeWord_apart hplace (by omega) (by omega)
  · rw [← hm.edges x hx hx' hnone]
    have hfar := hnone a hlow hhigh har
    unfold inCopy at hplace ⊢
    exact storeWord_apart (by omega) hplace (by omega)
  · rw [← hm.outside x hx hout]
    unfold inCopy at hplace ⊢
    exact storeWord_apart hx hplace (by omega)

/-- The walk in the copy is the walk along the cells. -/
theorem walkEbp_relocates (hp : Placed t ustack) (hm : Mirrors t ustack r m old vals mem)
    (hcell : t.userStackBase ≤ a ∧ a + 4 ≤ t.userStackTop) (hchain : ∀ c, OnChain (savedEbp t) vals a c → c % 4 = r)
    (hrel : relocate (savedEbp t) (fun v => u32 (v + sub32 ustack t.userStackBase)) fuel a vals = some vals') :
    ∃ mem', walkEbp t ustack (t.userStackTop - t.userStackBase) (sub32 ustack t.userStackBase) (fuel + 1) mem
      (inCopy t ustack a) = some mem' ∧ Mirrors t ustack r m old vals' mem' := by
  have htop := hp.high.2
  induction fuel generalizing a mem vals with
  | zero => cases hrel
  | succ fuel ih =>
      obtain ⟨hlow, hhigh⟩ := hcell
      have har := hchain a .start
      have hinside : inCopy t ustack a ≥ ustack ∧
          u32 (inCopy t ustack a + 4) ≤ u32 (ustack + (t.userStackTop - t.userStackBase)) := by
        unfold inCopy u32
        omega
      have hval := hm.words a hlow hhigh har
      rw [walkEbp, if_pos hinside]
      dsimp only
      rw [hval]
      rw [relocate] at hrel
      have hstored := hm.store hp hlow hhigh har (w := u32 (vals a + sub32 ustack t.userStackBase))
        (Nat.mod_lt _ (by decide))
      split at hrel
      · rename_i hnone
        have hout : ¬intoStack t (vals a) := by
          rw [← savedEbp_points, hnone]
          exact id
        rw [if_neg hout]
        exact ⟨mem, rfl, Option.some.inj hrel ▸ hm⟩
      · rename_i hlink
        cases hrel
        have hinto : intoStack t (vals a) := by
          rw [← savedEbp_points, hlink]
          trivial
        have hleft : ¬(inCopy t ustack (vals a) ≥ ustack ∧
            u32 (inCopy t ustack (vals a) + 4) ≤ u32 (ustack + (t.userStackTop - t.userStackBase))) := by
          have hno : ¬vals a + 4 ≤ t.userStackTop := fun hle => by
            rw [savedEbp_cell.mpr ⟨hinto.1, hle, rfl⟩] at hlink
            cases hlink
          obtain ⟨hlow', hhigh'⟩ := hinto
          unfold inCopy u32
          omega
        rw [if_pos hinto, hp.shift hinto, walkEbp, if_neg hleft]
        rw [hp.shift hinto] at hstored
        exact ⟨_, rfl, hstored⟩
      · rename_i b hlink
        obtain ⟨hlow', hhigh', rfl⟩ := savedEbp_cell.mp hlink
        have hinto : intoStack t (vals a) := ⟨hlow', Nat.le_of_add_right_le hhigh'⟩
        have hrest : ∀ c, OnChain (savedEbp t) (Function.update vals a (u32 (vals a + sub32 ustack t.userStackBase)))
            (vals a) c → c % 4 = r := fun c hc =>
          hchain c ((onChain_moved (fun v b hv => hp.shifted_away hv) hlink).mpr (.inr hc))
        rw [if_pos hinto]
        have hgo := ih hstored ⟨hlow', hhigh'⟩ hrest hrel
        rwa [← hp.shift hinto] at hgo

/-- What the walk makes of a plain copy, started at a word of it. -/
theorem walkEbp_from_cell (hp : Placed t ustack)
    (hplain : ∀ x, t.userStackBase ≤ x → x < t.userStackTop → mem (inCopy t ustack x) = m x)
    (hcell : t.userStackBase ≤ a ∧ a + 4 ≤ t.userStackTop) (haligned : ChainAligned t m a)
    (hfuel : t.userStackTop - t.userStackBase + 2 ≤ fuel) :
    ∃ mem', walkEbp t ustack (t.userStackTop - t.userStackBase) (sub32 ustack t.userStackBase) fuel mem
      (inCopy t ustack a) = some mem' ∧ StackCopy t ustack (Pointing t m a) m mem' ∧
      ∀ x < 4294967296, x < ustack ∨ ustack + (t.userStackTop - t.userStackBase) ≤ x → mem' x = mem x := by
  have htop := hp.high.2
  have hhigh := hp.high.1
  have hlink : savedEbp t a = .cell a := savedEbp_cell.mpr ⟨hcell.1, hcell.2, rfl⟩
  have hchain (c : Nat) (hc : OnChain (savedEbp t) (wordAt m) a c) : c % 4 = a % 4 :=
    haligned c a ⟨hlink, hc⟩ ⟨hlink, .start⟩
  have hplace {c : Nat} (hc : t.userStackBase ≤ c) (hc' : c + 4 ≤ t.userStackTop) :
      inCopy t ustack c + 4 ≤ 4294967296 ∧ c + 4 ≤ 4294967296 := by
    unfold inCopy
    omega
  have hadd {c j : Nat} (hc : t.userStackBase ≤ c) : inCopy t ustack c + j = inCopy t ustack (c + j) := by
    unfold inCopy
    omega
  have hstart : Mirrors t ustack (a % 4) m mem (wordAt m) mem := by
    refine ⟨fun c hc hc' _ => ?_, fun x hx hx' _ => hplain x hx hx', fun _ _ _ => rfl⟩
    refine wordAt_congr (hplace hc hc').1 (hplace hc hc').2 fun j hj => ?_
    rw [hadd hc]
    exact hplain (c + j) (by omega) (by omega)
  obtain ⟨fuel, rfl⟩ : ∃ n, fuel = n + 1 := ⟨fuel - 1, by omega⟩
  have hcells (c : Nat) (hc : OnChain (savedEbp t) (wordAt m) a c) (_ : (savedEbp t (wordAt m c)).points) :
      c ∈ List.range' t.userStackBase (t.userStackTop - t.userStackBase) := by
    have hbounds := FrameChain.bounds ⟨hlink, hc⟩
    exact List.mem_range'_1.mpr ⟨hbounds.1, by omega⟩
  have hmoved (v b : Nat) (hv : savedEbp t v = .cell b) :
      savedEbp t (u32 (v + sub32 ustack t.userStackBase)) = .none := hp.shifted_away hv
  have hrounds : (List.range' t.userStackBase (t.userStackTop - t.userStackBase)).length < fuel := by
    rw [List.length_range']
    omega
  obtain ⟨vals, hvals, hrel⟩ := relocate_ends hmoved hcells hrounds
  obtain ⟨mem', hmem', hm⟩ := walkEbp_relocates hp hstart hcell hchain hvals
  refine ⟨mem', hmem', ⟨fun c hc => ?_, fun x hx hx' hnone => ?_⟩, hm.outside⟩
  · have hbounds := hc.1.bounds
    rw [hm.words c hbounds.1 hbounds.2 (hchain c hc.1.2)]
    exact hrel.cells c hc.1.2 (savedEbp_points.mpr hc.2)
  · by_cases hword : ∃ c, t.userStackBase ≤ c ∧ c + 4 ≤ t.userStackTop ∧ c % 4 = a % 4 ∧ c ≤ x ∧ x < c + 4
    · obtain ⟨c, hc, hc', hcr, hlow, hlt⟩ := hword
      have hsame : wordAt mem' (inCopy t ustack c) = wordAt m c := by
        rw [hm.words c hc hc' hcr]
        exact hrel.rest c fun h => hnone c ⟨⟨hlink, h.1⟩, savedEbp_points.mp h.2⟩ ⟨hlow, hlt⟩
      have hbyte := bytes_of_wordAt (hplace hc hc').1 (hplace hc hc').2 hsame (j := x - c) (by omega)
      rwa [hadd hc, Nat.add_sub_cancel' hlow] at hbyte
    · exact hm.edges x hx hx' fun c hc hc' hcr hin => hword ⟨c, hc, hc', hcr, hin⟩

/-- Nothing is shifted. -/
theorem StackCopy.of_plain {cells : Nat → Prop}
    (hplain : ∀ x, t.userStackBase ≤ x → x < t.userStackTop → mem (inCopy t ustack x) = m x)
    (hnone : ∀ c, ¬cells c) : StackCopy t ustack cells m mem :=
  ⟨fun c hc => absurd hc (hnone c), fun x hx hx' _ => hplain x hx hx'⟩

theorem StackCopy.congr {cells cells' : Nat → Prop} {mem' : Bytes} (h : StackCopy t ustack cells m mem')
    (hcells : ∀ c, cells c ↔ cells' c) : StackCopy t ustack cells' m mem' := by
  obtain rfl : cells = cells' := funext fun c => propext (hcells c)
  exact h

/-- A chain begins in the stack. -/
theorem Pointing.into (h : Pointing t m a w) : intoStack t a := by
  obtain ⟨hlow, hhigh, -⟩ := savedEbp_cell.mp h.1.1
  exact ⟨hlow, Nat.le_of_add_right_le hhigh⟩

/-- The walk from an address of the stack, its end included. -/
theorem walkEbp_into (hp : Placed t ustack)
    (hplain : ∀ x, t.userStackBase ≤ x → x < t.userStackTop → mem (inCopy t ustack x) = m x) (hinto : intoStack t a)
    (haligned : ChainAligned t m a) (hfuel : t.userStackTop - t.userStackBase + 2 ≤ fuel) :
    ∃ mem', walkEbp t ustack (t.userStackTop - t.userStackBase) (sub32 ustack t.userStackBase) fuel mem
      (inCopy t ustack a) = some mem' ∧ StackCopy t ustack (Pointing t m a) m mem' ∧
      ∀ x < 4294967296, x < ustack ∨ ustack + (t.userStackTop - t.userStackBase) ≤ x → mem' x = mem x := by
  by_cases hcell : a + 4 ≤ t.userStackTop
  · exact walkEbp_from_cell hp hplain ⟨hinto.1, hcell⟩ haligned hfuel
  · -- there is no word of the stack at `a`
    obtain ⟨fuel, rfl⟩ : ∃ n, fuel = n + 1 := ⟨fuel - 1, by omega⟩
    refine ⟨mem, ?_, .of_plain hplain fun c hc => hcell (savedEbp_cell.mp hc.1.1).2.1, fun _ _ _ => rfl⟩
    obtain ⟨hlow, hhigh⟩ := hinto
    have htop := hp.high.2
    rw [walkEbp, if_neg]
    unfold inCopy u32
    omega

/-- From here on `cur + 4` wraps around. -/
def lastWord : Nat := 4294967292

/-- The walk from the last word of memory. -/
theorem walkEbp_at_end (hp : Placed t ustack) (hend : lastWord ≤ a) (ha : a < 4294967296)
    (hplain : ∀ x, t.userStackBase ≤ x → x < t.userStackTop → mem (inCopy t ustack x) = m x)
    (hword : wordAt mem a = wordAt m a) (haligned : ChainAligned t m (wordAt m a))
    (hfuel : t.userStackTop - t.userStackBase + 3 ≤ fuel) :
    ∃ mem', walkEbp t ustack (t.userStackTop - t.userStackBase) (sub32 ustack t.userStackBase) fuel mem a = some mem' ∧
      StackCopy t ustack (Pointing t m (wordAt m a)) m mem' ∧
      ∀ x < lastWord, 4 ≤ x → x < ustack ∨ ustack + (t.userStackTop - t.userStackBase) ≤ x → mem' x = mem x := by
  have hlow := hp.low
  have htop := hp.high
  unfold lastWord at *
  obtain ⟨fuel, rfl⟩ : ∃ n, fuel = n + 1 := ⟨fuel - 1, by omega⟩
  have hinside : a ≥ ustack ∧ u32 (a + 4) ≤ u32 (ustack + (t.userStackTop - t.userStackBase)) := by
    unfold u32
    omega
  rw [walkEbp, if_pos hinside]
  dsimp only
  rw [hword]
  by_cases hinto : intoStack t (wordAt m a)
  · rw [if_pos hinto, hp.shift hinto]
    -- the last word of memory is not part of the copy
    have hkept (x : Nat) (hx : 4 ≤ x) (hx' : x < 4294967292) :
        storeWord mem a (inCopy t ustack (wordAt m a)) x = mem x := storeWord_far (by unfold sub32; omega)
    have hplain' (x : Nat) (hx : t.userStackBase ≤ x) (hx' : x < t.userStackTop) :
        storeWord mem a (inCopy t ustack (wordAt m a)) (inCopy t ustack x) = m x := by
      rw [hkept (inCopy t ustack x) (by unfold inCopy; omega) (by unfold inCopy; omega)]
      exact hplain x hx hx'
    obtain ⟨mem', hmem', hcopy, hout⟩ := walkEbp_into hp hplain' hinto haligned (Nat.le_of_succ_le_succ hfuel)
    refine ⟨mem', hmem', hcopy, fun x hx hx' hx'' => ?_⟩
    rw [hout x (by omega) hx'', hkept x hx' hx]
  · rw [if_neg hinto]
    exact ⟨mem, rfl, .of_plain hplain fun c hc => hinto hc.into, fun _ _ _ _ => rfl⟩

/-- The words that the walk shifts: those of the chain, and those of the chain
that the last word of memory leads to, if the walk begins there. -/
def Walked (t : Stacks) (m : Bytes) (ebp cell : Nat) : Prop :=
  Pointing t m ebp cell ∨ lastWord ≤ ebp ∧ Pointing t m (wordAt m ebp) cell

/-- The walk that `fork_task` makes in a plain copy. -/
theorem walkEbp_spec {ebp : Nat} (hp : Placed t ustack) (hebp : ebp < 4294967296)
    (hplain : ∀ x, t.userStackBase ≤ x → x < t.userStackTop → mem (inCopy t ustack x) = m x)
    (hfar : ¬(ustack ≤ ebp ∧ ebp < ustack + (t.userStackTop - t.userStackBase)))
    (hlast : lastWord ≤ ebp → wordAt mem ebp = wordAt m ebp) (haligned : ChainAligned t m ebp)
    (haligned' : lastWord ≤ ebp → ChainAligned t m (wordAt m ebp))
    (hfuel : t.userStackTop - t.userStackBase + 3 ≤ fuel) :
    ∃ mem', walkEbp t ustack (t.userStackTop - t.userStackBase) (sub32 ustack t.userStackBase) fuel mem
      (shifted t ustack ebp) = some mem' ∧ StackCopy t ustack (Walked t m ebp) m mem' ∧
      ∀ x < lastWord, 4 ≤ x → x < ustack ∨ ustack + (t.userStackTop - t.userStackBase) ≤ x → mem' x = mem x := by
  have htop := hp.high
  unfold shifted
  by_cases hinto : intoStack t ebp
  · -- the frame pointer is one of the stack
    rw [if_pos hinto, hp.shift hinto]
    obtain ⟨mem', hmem', hcopy, hout⟩ := walkEbp_into hp hplain hinto haligned (Nat.le_of_succ_le hfuel)
    have hnear : ¬lastWord ≤ ebp := by
      have hhigh := hinto.2
      unfold lastWord
      omega
    refine ⟨mem', hmem', hcopy.congr fun c => ⟨.inl, fun h => h.resolve_right fun h' => hnear h'.1⟩, ?_⟩
    exact fun x hx _ hx' => hout x (Nat.lt_trans hx (by decide)) hx'
  · rw [if_neg hinto]
    by_cases hend : lastWord ≤ ebp
    · obtain ⟨mem', hmem', hcopy, hout⟩ := walkEbp_at_end hp hend hebp hplain (hlast hend) (haligned' hend) hfuel
      refine ⟨mem', hmem', hcopy.congr fun c => ⟨fun h => .inr ⟨hend, h⟩, fun h => ?_⟩, hout⟩
      exact (h.resolve_left fun h' => hinto h'.into).2
    · -- the walk does not begin
      obtain ⟨fuel, rfl⟩ : ∃ n, fuel = n + 1 := ⟨fuel - 1, by omega⟩
      have hoff : ¬(ebp ≥ ustack ∧ u32 (ebp + 4) ≤ u32 (ustack + (t.userStackTop - t.userStackBase))) := by
        unfold lastWord at hend
        unfold u32
        omega
      rw [walkEbp, if_neg hoff]
      refine ⟨mem, rfl, .of_plain hplain fun c hc => ?_, fun _ _ _ _ => rfl⟩
      exact hc.elim (fun h => hinto h.into) fun h => hend h.1

end Walk

end LiteBSD.Frames
