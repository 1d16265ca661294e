/-
# `LiteBSD.Lib.Tiling` — blocks laid end to end, and linked lists of addresses

The abstract side of an in-band block allocator.  A tiling is a list of
blocks `(size, free)`; block after block, a header of `hd` bytes and then
`size` bytes of payload, fills an address range from a base upwards.  Where
a block lies is not stored but computed (`layout`), so two blocks cannot
overlap and no gap can be expressed.

`Linked nxt p as q` is the other half: following `nxt` from `p` visits the
addresses `as` in order and then arrives at `q`.  It is the shape of every
singly linked list kept in memory, whatever the cells hold besides.

The abstract steps of an allocator on a tiling are `AllocStep` (split a
free block, take it whole, or grow the tiling) and `release` (mark a block
free and merge it with free neighbours).  Both keep `Separated`: no two
neighbours are free.
-/
import Mathlib.Data.List.Chain
import Mathlib.Data.List.Pairwise
import Mathlib.Logic.Function.Basic

namespace LiteBSD.Lib

/-! ## Linked lists of addresses -/

/-- Following `nxt` from `p` visits `as` in order and ends at `q`. -/
def Linked (nxt : Nat → Nat) : Nat → List Nat → Nat → Prop
  | p, [], q => p = q
  | p, a :: as, q => p = a ∧ Linked nxt (nxt a) as q

theorem linked_append {nxt : Nat → Nat} : ∀ {p : Nat} {as bs : List Nat} {q : Nat},
    Linked nxt p (as ++ bs) q ↔ ∃ m, Linked nxt p as m ∧ Linked nxt m bs q
  | p, [], bs, q => by simp [Linked]
  | p, a :: as, bs, q => by
      simp only [List.cons_append, Linked, @linked_append nxt _ as, and_assoc,
        exists_and_left]

/-- Only the links of the visited cells matter. -/
theorem Linked.congr {nxt nxt' : Nat → Nat} : ∀ {p : Nat} {as : List Nat} {q : Nat},
    (∀ a ∈ as, nxt' a = nxt a) → Linked nxt p as q → Linked nxt' p as q
  | _, [], _, _, h => h
  | _, a :: as, _, heq, h => by
      refine ⟨h.1, ?_⟩
      rw [heq a List.mem_cons_self]
      exact Linked.congr (fun x hx => heq x (List.mem_cons_of_mem _ hx)) h.2

/-- Redirecting the last cell redirects where the list arrives. -/
theorem Linked.setLast {nxt nxt' : Nat → Nat} {p b q v : Nat} {as : List Nat}
    (h : Linked nxt p (as ++ [b]) q) (heq : ∀ a ∈ as, nxt' a = nxt a)
    (hb : nxt' b = v) : Linked nxt' p (as ++ [b]) v := by
  obtain ⟨m, has, hm, -⟩ := linked_append.mp h
  exact linked_append.mpr ⟨m, has.congr heq, hm, hb⟩

/-! ## Tilings -/

/-- A block of a tiling: the bytes after its header, and whether it is free. -/
structure Seg where
  size : Nat
  free : Bool
deriving DecidableEq, Repr

section Layout

variable (hd : Nat)

/-- The bytes a tiling covers. -/
def span : List Seg → Nat
  | [] => 0
  | b :: bs => hd + b.size + span bs

/-- Each block with the address of its header, the first one at `a`. -/
def layout : Nat → List Seg → List (Nat × Seg)
  | _, [] => []
  | a, b :: bs => (a, b) :: layout (a + (hd + b.size)) bs

/-- The header addresses of the free blocks, in address order. -/
def freeAddrs (a : Nat) (bs : List Seg) : List Nat :=
  ((layout hd a bs).filter fun x => x.2.free).map Prod.fst

/-- The header addresses of the blocks in use, in address order. -/
def liveAddrs (a : Nat) (bs : List Seg) : List Nat :=
  ((layout hd a bs).filter fun x => !x.2.free).map Prod.fst

/-- The bytes of the blocks in use, headers included. -/
def usedBytes : List Seg → Nat
  | [] => 0
  | b :: bs => (if b.free then 0 else hd + b.size) + usedBytes bs

variable {hd}

@[simp] theorem span_nil : span hd [] = 0 := rfl

@[simp] theorem span_cons (b : Seg) (bs : List Seg) :
    span hd (b :: bs) = hd + b.size + span hd bs := rfl

@[simp] theorem span_append (as bs : List Seg) :
    span hd (as ++ bs) = span hd as + span hd bs := by
  induction as with
  | nil => simp
  | cons a as ih => simp only [List.cons_append, span_cons, ih]; omega

@[simp] theorem usedBytes_nil : usedBytes hd [] = 0 := rfl

@[simp] theorem usedBytes_cons (b : Seg) (bs : List Seg) :
    usedBytes hd (b :: bs) = (if b.free then 0 else hd + b.size) + usedBytes hd bs := rfl

@[simp] theorem layout_nil (a : Nat) : layout hd a [] = [] := rfl

@[simp] theorem layout_cons (a : Nat) (b : Seg) (bs : List Seg) :
    layout hd a (b :: bs) = (a, b) :: layout hd (a + (hd + b.size)) bs := rfl

@[simp] theorem usedBytes_append (as bs : List Seg) :
    usedBytes hd (as ++ bs) = usedBytes hd as + usedBytes hd bs := by
  induction as with
  | nil => simp
  | cons a as ih => simp only [List.cons_append, usedBytes_cons, ih]; omega

theorem usedBytes_le_span : ∀ bs : List Seg, usedBytes hd bs ≤ span hd bs
  | [] => Nat.le_refl 0
  | b :: bs => by
      have := usedBytes_le_span bs
      simp only [usedBytes_cons, span_cons]
      split <;> omega

@[simp] theorem layout_append (a : Nat) (as bs : List Seg) :
    layout hd a (as ++ bs) = layout hd a as ++ layout hd (a + span hd as) bs := by
  induction as generalizing a with
  | nil => simp
  | cons b as ih => simp [ih, Nat.add_assoc]

@[simp] theorem freeAddrs_append (a : Nat) (as bs : List Seg) :
    freeAddrs hd a (as ++ bs) = freeAddrs hd a as ++ freeAddrs hd (a + span hd as) bs := by
  simp [freeAddrs]

@[simp] theorem liveAddrs_append (a : Nat) (as bs : List Seg) :
    liveAddrs hd a (as ++ bs) = liveAddrs hd a as ++ liveAddrs hd (a + span hd as) bs := by
  simp [liveAddrs]

@[simp] theorem freeAddrs_cons (a : Nat) (b : Seg) (bs : List Seg) :
    freeAddrs hd a (b :: bs) =
      (if b.free then [a] else []) ++ freeAddrs hd (a + (hd + b.size)) bs := by
  cases h : b.free <;> simp [freeAddrs, h]

@[simp] theorem liveAddrs_cons (a : Nat) (b : Seg) (bs : List Seg) :
    liveAddrs hd a (b :: bs) =
      (if b.free then [] else [a]) ++ liveAddrs hd (a + (hd + b.size)) bs := by
  cases h : b.free <;> simp [liveAddrs, h]

@[simp] theorem freeAddrs_nil (a : Nat) : freeAddrs hd a [] = [] := rfl

@[simp] theorem liveAddrs_nil (a : Nat) : liveAddrs hd a [] = [] := rfl

/-- Every block lies inside the range its tiling covers. -/
theorem layout_bounds {a : Nat} {bs : List Seg} {x : Nat × Seg} (hx : x ∈ layout hd a bs) :
    a ≤ x.1 ∧ x.1 + (hd + x.2.size) ≤ a + span hd bs := by
  induction bs generalizing a with
  | nil => simp at hx
  | cons b bs ih =>
      simp only [layout_cons, List.mem_cons] at hx
      simp only [span_cons]
      rcases hx with rfl | hx
      · simp
      · have := ih hx
        omega

/-- Blocks follow one another without overlap. -/
theorem layout_pairwise (a : Nat) (bs : List Seg) :
    (layout hd a bs).Pairwise fun x y => x.1 + (hd + x.2.size) ≤ y.1 := by
  induction bs generalizing a with
  | nil => exact .nil
  | cons b bs ih =>
      refine List.pairwise_cons.mpr ⟨fun y hy => ?_, ih _⟩
      exact (layout_bounds hy).1

/-- Two blocks of one tiling are the same, or one ends before the other. -/
theorem layout_disjoint {a : Nat} {bs : List Seg} {x y : Nat × Seg}
    (hx : x ∈ layout hd a bs) (hy : y ∈ layout hd a bs) :
    x = y ∨ x.1 + (hd + x.2.size) ≤ y.1 ∨ y.1 + (hd + y.2.size) ≤ x.1 := by
  induction bs generalizing a with
  | nil => simp at hx
  | cons b bs ih =>
      simp only [layout_cons, List.mem_cons] at hx hy
      rcases hx with rfl | hx <;> rcases hy with rfl | hy
      · exact Or.inl rfl
      · exact Or.inr (Or.inl (layout_bounds hy).1)
      · exact Or.inr (Or.inr (layout_bounds hx).1)
      · exact ih hx hy

/-- A block of the layout splits the tiling around it. -/
theorem layout_split {a : Nat} {bs : List Seg} {x : Nat × Seg} (hx : x ∈ layout hd a bs) :
    ∃ pre post, bs = pre ++ x.2 :: post ∧ x.1 = a + span hd pre := by
  induction bs generalizing a with
  | nil => simp at hx
  | cons b bs ih =>
      simp only [layout_cons, List.mem_cons] at hx
      rcases hx with rfl | hx
      · exact ⟨[], bs, rfl, by simp⟩
      · obtain ⟨pre, post, hbs, hx1⟩ := ih hx
        refine ⟨b :: pre, post, by simp [hbs], ?_⟩
        simp only [span_cons, hx1]
        omega

theorem mem_freeAddrs {a x : Nat} {bs : List Seg} :
    x ∈ freeAddrs hd a bs ↔ ∃ b, (x, b) ∈ layout hd a bs ∧ b.free = true := by
  simp [freeAddrs]

theorem mem_liveAddrs {a x : Nat} {bs : List Seg} :
    x ∈ liveAddrs hd a bs ↔ ∃ b, (x, b) ∈ layout hd a bs ∧ b.free = false := by
  simp [liveAddrs]

/-- A free block, as a place in the tiling. -/
theorem freeAddrs_split {a x : Nat} {bs : List Seg} (hx : x ∈ freeAddrs hd a bs) :
    ∃ pre s post, bs = pre ++ ⟨s, true⟩ :: post ∧ x = a + span hd pre := by
  obtain ⟨⟨s, f⟩, hb, hf⟩ := mem_freeAddrs.mp hx
  obtain ⟨pre, post, hbs, hx1⟩ := layout_split hb
  exact ⟨pre, s, post, by simpa [← hf] using hbs, hx1⟩

/-- A block in use, as a place in the tiling. -/
theorem liveAddrs_split {a x : Nat} {bs : List Seg} (hx : x ∈ liveAddrs hd a bs) :
    ∃ pre s post, bs = pre ++ ⟨s, false⟩ :: post ∧ x = a + span hd pre := by
  obtain ⟨⟨s, f⟩, hb, hf⟩ := mem_liveAddrs.mp hx
  obtain ⟨pre, post, hbs, hx1⟩ := layout_split hb
  exact ⟨pre, s, post, by simpa [← hf] using hbs, hx1⟩

theorem freeAddrs_bounds {a x : Nat} {bs : List Seg} (hx : x ∈ freeAddrs hd a bs) :
    a ≤ x ∧ x + hd ≤ a + span hd bs := by
  obtain ⟨b, hb, -⟩ := mem_freeAddrs.mp hx
  have := layout_bounds hb
  simp only at this
  omega

theorem liveAddrs_bounds {a x : Nat} {bs : List Seg} (hx : x ∈ liveAddrs hd a bs) :
    a ≤ x ∧ x + hd ≤ a + span hd bs := by
  obtain ⟨b, hb, -⟩ := mem_liveAddrs.mp hx
  have := layout_bounds hb
  simp only at this
  omega

/-- With a real header, addresses increase strictly along the tiling. -/
theorem freeAddrs_sorted (hpos : 0 < hd) (a : Nat) (bs : List Seg) :
    (freeAddrs hd a bs).Pairwise (· < ·) := by
  refine List.pairwise_map.mpr (((layout_pairwise a bs).filter _).imp ?_)
  intro x y h
  omega

/-- A tiling has at most one free block for every header that fits. -/
theorem freeAddrs_length_le (a : Nat) (bs : List Seg) :
    hd * (freeAddrs hd a bs).length ≤ span hd bs := by
  induction bs generalizing a with
  | nil => simp
  | cons b bs ih =>
      have := ih (a + (hd + b.size))
      simp only [freeAddrs_cons, span_cons, List.length_append, Nat.mul_add]
      split <;> simp <;> omega

/-- With sizes that are multiples of a unit, blocks begin at such multiples. -/
theorem dvd_span {m : Nat} (hhd : m ∣ hd) {bs : List Seg} (hbs : ∀ b ∈ bs, m ∣ b.size) : m ∣ span hd bs := by
  induction bs with
  | nil => exact Nat.dvd_zero m
  | cons b bs ih =>
      rw [List.forall_mem_cons] at hbs
      exact Nat.dvd_add (Nat.dvd_add hhd hbs.1) (ih hbs.2)

end Layout

/-! ## The abstract allocator -/

/-- No two neighbouring blocks are free. -/
def Separated (bs : List Seg) : Prop :=
  bs.IsChain fun a b => ¬(a.free = true ∧ b.free = true)

/-- The neighbour on the left, if any, is in use. -/
def LastUsed (pre : List Seg) : Prop := ∀ b ∈ pre.getLast?, b.free = false

/-- The neighbour on the right, if any, is in use. -/
def HeadUsed (post : List Seg) : Prop := ∀ b ∈ post.head?, b.free = false

/-- Separation, seen from one block. -/
theorem separated_around {pre post : List Seg} {b : Seg} :
    Separated (pre ++ b :: post) ↔ Separated pre ∧ Separated post ∧
      (b.free = true → LastUsed pre ∧ HeadUsed post) := by
  simp only [Separated, List.isChain_append, List.isChain_cons, LastUsed, HeadUsed,
    List.head?_cons, Option.mem_some_iff, forall_eq', not_and, Bool.not_eq_true]
  constructor
  · rintro ⟨hpre, ⟨hb, hpost⟩, hlast⟩
    refine ⟨hpre, hpost, fun hf => ⟨fun x hx => ?_, fun y hy => hb y hy hf⟩⟩
    cases hxf : x.free with
    | false => rfl
    | true => rw [hlast x hx hxf] at hf; exact hf.symm
  · rintro ⟨hpre, hpost, hf⟩
    refine ⟨hpre, ⟨fun y hy hb => (hf hb).2 y hy, hpost⟩, fun x hx hxf => ?_⟩
    cases hb : b.free with
    | false => rfl
    | true => rw [(hf hb).1 x hx] at hxf; exact hxf.symm

theorem separated_cons {b : Seg} {bs : List Seg} :
    Separated (b :: bs) ↔ Separated bs ∧ (b.free = true → HeadUsed bs) := by
  have h := @separated_around [] bs b
  simpa [Separated, LastUsed] using h

/-- A separated tiling with nothing in use is a single block. -/
theorem Separated.single {bs : List Seg} (h : Separated bs)
    (hfree : ∀ b ∈ bs, b.free = true) : bs = [] ∨ ∃ s, bs = [⟨s, true⟩] := by
  match bs with
  | [] => exact Or.inl rfl
  | [⟨s, f⟩] =>
      have : f = true := hfree _ List.mem_cons_self
      exact Or.inr ⟨s, by rw [this]⟩
  | b :: c :: bs =>
      have hb := hfree b List.mem_cons_self
      have hc := hfree c (List.mem_cons_of_mem _ List.mem_cons_self)
      have := (separated_cons.mp h).2 hb c (by simp)
      rw [hc] at this
      exact Bool.noConfusion this

section Steps

variable (hd : Nat)

/-- Handing out a block of at least `r` bytes from a tiling: split a free
block, take a free block whole, or put a new block at the end.  The index
after `r` is the offset of the block handed out. -/
inductive AllocStep (r : Nat) : Nat → List Seg → List Seg → Prop
  | split {pre post : List Seg} {s : Nat} : r + hd ≤ s →
      AllocStep r (span hd pre) (pre ++ ⟨s, true⟩ :: post)
        (pre ++ ⟨r, false⟩ :: ⟨s - r - hd, true⟩ :: post)
  | take {pre post : List Seg} {s : Nat} : r ≤ s →
      AllocStep r (span hd pre) (pre ++ ⟨s, true⟩ :: post) (pre ++ ⟨s, false⟩ :: post)
  | grow {bs : List Seg} : AllocStep r (span hd bs) bs (bs ++ [⟨r, false⟩])

/-- Taking a block back, with the four ways it meets its neighbours.  The
first index is the offset of the block, the second its size. -/
inductive FreeStep : Nat → Nat → List Seg → List Seg → Prop
  | alone {pre post : List Seg} {s : Nat} : LastUsed pre → HeadUsed post →
      FreeStep (span hd pre) s (pre ++ ⟨s, false⟩ :: post) (pre ++ ⟨s, true⟩ :: post)
  | next {pre post : List Seg} {s u : Nat} : LastUsed pre →
      FreeStep (span hd pre) s (pre ++ ⟨s, false⟩ :: ⟨u, true⟩ :: post)
        (pre ++ ⟨s + (hd + u), true⟩ :: post)
  | prev {pre post : List Seg} {t s : Nat} : HeadUsed post →
      FreeStep (span hd pre + (hd + t)) s (pre ++ ⟨t, true⟩ :: ⟨s, false⟩ :: post)
        (pre ++ ⟨t + (hd + s), true⟩ :: post)
  | both {pre post : List Seg} {t s u : Nat} :
      FreeStep (span hd pre + (hd + t)) s
        (pre ++ ⟨t, true⟩ :: ⟨s, false⟩ :: ⟨u, true⟩ :: post)
        (pre ++ ⟨t + (hd + (s + (hd + u))), true⟩ :: post)

variable {hd}

theorem AllocStep.separated {r o : Nat} {bs bs' : List Seg} (h : AllocStep hd r o bs bs')
    (hs : Separated bs) : Separated bs' := by
  cases h with
  | split _ =>
      obtain ⟨hpre, hpost, hf⟩ := separated_around.mp hs
      exact separated_around.mpr
        ⟨hpre, separated_cons.mpr ⟨hpost, fun _ => (hf rfl).2⟩, by simp⟩
  | take _ =>
      obtain ⟨hpre, hpost, -⟩ := separated_around.mp hs
      exact separated_around.mpr ⟨hpre, hpost, by simp⟩
  | grow => exact separated_around.mpr ⟨hs, .nil, by simp⟩

theorem FreeStep.separated {o s : Nat} {bs bs' : List Seg} (h : FreeStep hd o s bs bs')
    (hs : Separated bs) : Separated bs' := by
  cases h with
  | alone hpre hpost =>
      obtain ⟨h₁, h₂, -⟩ := separated_around.mp hs
      exact separated_around.mpr ⟨h₁, h₂, fun _ => ⟨hpre, hpost⟩⟩
  | next hpre =>
      obtain ⟨h₁, h₂, -⟩ := separated_around.mp hs
      obtain ⟨h₂, hu⟩ := separated_cons.mp h₂
      exact separated_around.mpr ⟨h₁, h₂, fun _ => ⟨hpre, hu rfl⟩⟩
  | prev hpost =>
      obtain ⟨h₁, h₂, ht⟩ := separated_around.mp hs
      exact separated_around.mpr
        ⟨h₁, (separated_cons.mp h₂).1, fun _ => ⟨(ht rfl).1, hpost⟩⟩
  | both =>
      obtain ⟨h₁, h₂, ht⟩ := separated_around.mp hs
      obtain ⟨h₃, hu⟩ := separated_cons.mp (separated_cons.mp h₂).1
      exact separated_around.mpr ⟨h₁, h₃, fun _ => ⟨(ht rfl).1, hu rfl⟩⟩

/-- Only growing moves the end of the tiling. -/
theorem FreeStep.span_eq {o s : Nat} {bs bs' : List Seg} (h : FreeStep hd o s bs bs') :
    span hd bs' = span hd bs := by
  cases h <;> simp <;> omega

theorem FreeStep.usedBytes_eq {o s : Nat} {bs bs' : List Seg} (h : FreeStep hd o s bs bs') :
    usedBytes hd bs' + (hd + s) = usedBytes hd bs := by
  cases h <;> simp <;> omega

/-- A step hands out one more block, at its offset, and moves no other. -/
theorem AllocStep.mem_live {r o a x : Nat} {bs bs' : List Seg}
    (h : AllocStep hd r o bs bs') :
    x ∈ liveAddrs hd a bs' ↔ x = a + o ∨ x ∈ liveAddrs hd a bs := by
  cases h with
  | split h =>
      have hw : ∀ b s : Nat, r + hd ≤ s →
          b + (hd + r) + (hd + (s - r - hd)) = b + (hd + s) := by omega
      simp [hw _ _ h]
      tauto
  | take _ => simp; tauto
  | grow => simp; tauto

/-- The block handed out was not in use. -/
theorem AllocStep.fresh (hpos : 0 < hd) {r o a : Nat} {bs bs' : List Seg}
    (h : AllocStep hd r o bs bs') : a + o ∉ liveAddrs hd a bs := by
  have hapart : ∀ (pre post : List Seg) (s : Nat), a + span hd pre ∉ liveAddrs hd a pre ∧
      a + span hd pre ∉ liveAddrs hd (a + span hd pre + (hd + s)) post := by
    intro pre post s
    constructor
    · intro hmem
      have := (liveAddrs_bounds hmem).2
      omega
    · intro hmem
      have := (liveAddrs_bounds hmem).1
      omega
  cases h with
  | @split pre post s _ => simpa using hapart pre post s
  | @take pre post s _ => simpa using hapart pre post s
  | grow => exact (hapart bs [] 0).1

/-- A step takes back the block at its offset and moves no other. -/
theorem FreeStep.mem_live (hpos : 0 < hd) {o s a x : Nat} {bs bs' : List Seg}
    (h : FreeStep hd o s bs bs') :
    x ∈ liveAddrs hd a bs' ↔ x ∈ liveAddrs hd a bs ∧ x ≠ a + o := by
  have hlo : ∀ {b : Nat} {l : List Seg}, x ∈ liveAddrs hd b l → b ≤ x :=
    fun h => (liveAddrs_bounds h).1
  have hhi : ∀ {b : Nat} {l : List Seg}, x ∈ liveAddrs hd b l → x + hd ≤ b + span hd l :=
    fun h => (liveAddrs_bounds h).2
  -- the blocks before lie below the freed address, the blocks after above it
  have key : ∀ {o b : Nat} {l l' : List Seg}, a + span hd l ≤ a + o → a + o < b →
      (x ∈ liveAddrs hd a l ∨ x ∈ liveAddrs hd b l' ↔
        (x ∈ liveAddrs hd a l ∨ x = a + o ∨ x ∈ liveAddrs hd b l') ∧ x ≠ a + o) := by
    intro o b l l' h₁ h₂
    constructor
    · rintro (h | h)
      · have := hhi h
        exact ⟨Or.inl h, by omega⟩
      · have := hlo h
        exact ⟨Or.inr (Or.inr h), by omega⟩
    · rintro ⟨h | h | h, hne⟩
      · exact Or.inl h
      · exact absurd h hne
      · exact Or.inr h
  cases h with
  | alone _ _ =>
      simpa using key (Nat.le_refl _) (by omega)
  | @next pre post s u _ =>
      have hw : a + span hd pre + (hd + (s + (hd + u))) =
        a + span hd pre + (hd + s) + (hd + u) := by omega
      simpa [hw] using key (b := a + span hd pre + (hd + s) + (hd + u)) (Nat.le_refl _)
        (by omega)
  | @prev pre post t s _ =>
      have hw : a + span hd pre + (hd + (t + (hd + s))) =
        a + span hd pre + (hd + t) + (hd + s) := by omega
      have hw' : a + (span hd pre + (hd + t)) = a + span hd pre + (hd + t) := by omega
      simpa [hw, hw'] using key (o := span hd pre + (hd + t))
        (b := a + span hd pre + (hd + t) + (hd + s)) (by omega) (by omega)
  | @both pre post t s u =>
      have hw : a + span hd pre + (hd + (t + (hd + (s + (hd + u))))) =
        a + span hd pre + (hd + t) + (hd + s) + (hd + u) := by omega
      have hw' : a + (span hd pre + (hd + t)) = a + span hd pre + (hd + t) := by omega
      simpa [hw, hw'] using key (o := span hd pre + (hd + t))
        (b := a + span hd pre + (hd + t) + (hd + s) + (hd + u)) (by omega) (by omega)

/-- A step leaves the blocks in use where they are. -/
theorem AllocStep.keep {r o a : Nat} {bs bs' : List Seg} {x : Nat × Seg} (h : AllocStep hd r o bs bs')
    (hused : x.2.free = false) (hx : x ∈ layout hd a bs) : x ∈ layout hd a bs' := by
  have hfree : ∀ {b s : Nat}, x ≠ (b, ⟨s, true⟩) := by
    rintro b s rfl
    cases hused
  cases h with
  | @split pre post s hs =>
      have hw : ∀ b, b + (hd + r) + (hd + (s - r - hd)) = b + (hd + s) := by omega
      simp only [layout_append, layout_cons, List.mem_append, List.mem_cons, hfree, false_or, hw] at hx ⊢
      tauto
  | take _ =>
      simp only [layout_append, layout_cons, List.mem_append, List.mem_cons, hfree, false_or] at hx ⊢
      tauto
  | grow =>
      rw [layout_append, List.mem_append]
      exact .inl hx

/-- The block that is handed out. -/
theorem AllocStep.block {r o a : Nat} {bs bs' : List Seg} (h : AllocStep hd r o bs bs') :
    ∃ k, r ≤ k ∧ (a + o, ⟨k, false⟩) ∈ layout hd a bs' := by
  cases h with
  | split _ => exact ⟨r, Nat.le_refl r, by simp⟩
  | @take pre post s hs => exact ⟨s, hs, by simp⟩
  | grow => exact ⟨r, Nat.le_refl r, by simp⟩

/-- Taking a block back leaves the others in use where they are. -/
theorem FreeStep.keep {o s a : Nat} {bs bs' : List Seg} {x : Nat × Seg} (h : FreeStep hd o s bs bs')
    (hused : x.2.free = false) (hne : x.1 ≠ a + o) (hx : x ∈ layout hd a bs) : x ∈ layout hd a bs' := by
  have hfree : ∀ {b k : Nat}, x ≠ (b, ⟨k, true⟩) := by
    rintro b k rfl
    cases hused
  have hself : ∀ {b k : Nat}, b = a + o → x ≠ (b, ⟨k, false⟩) := by
    rintro b k rfl rfl
    exact hne rfl
  cases h with
  | alone _ _ =>
      simp only [layout_append, layout_cons, List.mem_append, List.mem_cons, hfree, hself rfl, false_or] at hx ⊢
      exact hx
  | @next pre post s u _ =>
      have hw : ∀ b, b + (hd + (s + (hd + u))) = b + (hd + s) + (hd + u) := by omega
      simp only [layout_append, layout_cons, List.mem_append, List.mem_cons, hfree, hself rfl, false_or, hw] at hx ⊢
      exact hx
  | @prev pre post t s _ =>
      have hw : ∀ b, b + (hd + (t + (hd + s))) = b + (hd + t) + (hd + s) := by omega
      have hat : a + span hd pre + (hd + t) = a + (span hd pre + (hd + t)) := by omega
      simp only [layout_append, layout_cons, List.mem_append, List.mem_cons, hfree, hself hat, false_or, hw] at hx ⊢
      exact hx
  | @both pre post t s u =>
      have hw : ∀ b, b + (hd + (t + (hd + (s + (hd + u))))) = b + (hd + t) + (hd + s) + (hd + u) := by omega
      have hat : a + span hd pre + (hd + t) = a + (span hd pre + (hd + t)) := by omega
      simp only [layout_append, layout_cons, List.mem_append, List.mem_cons, hfree, hself hat, false_or, hw] at hx ⊢
      exact hx

/-- Something is laid out after a step. -/
theorem AllocStep.ne_nil {r o : Nat} {bs bs' : List Seg} (h : AllocStep hd r o bs bs') :
    bs' ≠ [] := by
  cases h <;> simp

theorem FreeStep.ne_nil {o s : Nat} {bs bs' : List Seg} (h : FreeStep hd o s bs bs') :
    bs' ≠ [] := by
  cases h <;> simp

/-- Sizes stay multiples of a unit that divides the header and the request. -/
theorem AllocStep.dvd_size {m r o : Nat} {bs bs' : List Seg} (h : AllocStep hd r o bs bs')
    (hhd : m ∣ hd) (hr : m ∣ r) (hbs : ∀ b ∈ bs, m ∣ b.size) : ∀ b ∈ bs', m ∣ b.size := by
  cases h with
  | split h =>
      simp only [List.forall_mem_append, List.forall_mem_cons] at hbs ⊢
      exact ⟨hbs.1, hr, Nat.dvd_sub (Nat.dvd_sub hbs.2.1 hr) hhd, hbs.2.2⟩
  | take _ =>
      simp only [List.forall_mem_append, List.forall_mem_cons] at hbs ⊢
      exact hbs
  | grow =>
      simp only [List.forall_mem_append, List.forall_mem_cons]
      exact ⟨hbs, hr, by simp⟩

theorem FreeStep.dvd_size {m o s : Nat} {bs bs' : List Seg} (h : FreeStep hd o s bs bs')
    (hhd : m ∣ hd) (hbs : ∀ b ∈ bs, m ∣ b.size) : ∀ b ∈ bs', m ∣ b.size := by
  cases h with
  | alone _ _ =>
      simp only [List.forall_mem_append, List.forall_mem_cons] at hbs ⊢
      exact hbs
  | next _ =>
      simp only [List.forall_mem_append, List.forall_mem_cons] at hbs ⊢
      exact ⟨hbs.1, Nat.dvd_add hbs.2.1 (Nat.dvd_add hhd hbs.2.2.1), hbs.2.2.2⟩
  | prev _ =>
      simp only [List.forall_mem_append, List.forall_mem_cons] at hbs ⊢
      exact ⟨hbs.1, Nat.dvd_add hbs.2.1 (Nat.dvd_add hhd hbs.2.2.1), hbs.2.2.2⟩
  | both =>
      simp only [List.forall_mem_append, List.forall_mem_cons] at hbs ⊢
      exact ⟨hbs.1, Nat.dvd_add hbs.2.1 (Nat.dvd_add hhd
        (Nat.dvd_add hbs.2.2.1 (Nat.dvd_add hhd hbs.2.2.2.1))), hbs.2.2.2.2⟩

end Steps

end LiteBSD.Lib
