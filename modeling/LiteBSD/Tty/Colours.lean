/-
# `LiteBSD.Tty.Colours` — the operands of the colour selectors

`ESC [ 38 ; 5 ; n m` chooses a foreground colour from a palette of 256 and
`ESC [ 38 ; 2 ; r ; g ; b m` one by its components; with 48 it is the
background.  `ansi_csi` knows neither.  It goes through the numbers of the
sequence one by one, and 38, 48, 5 and 2 mean nothing to it; `n`, `r`, `g` and
`b` are taken for attributes of their own.

So such a sequence leaves the rest of the pen alone exactly if the last of its
operands that is the number of an attribute sets it to what it is
(`OperandsHarmless`).  The numbers behind it have the effect they have in a
sequence of their own if there are at most eight numbers in all.  Of more the
digits from the eighth number on run together into one number, which then has
to set what those numbers would have set (`FurtherHarmless`, `colours_iff`).
-/
import LiteBSD.Tty.Sequence
import Mathlib.Data.List.Induction

namespace LiteBSD.Tty

/-- What is selected: an entry of the palette, or a colour by its components. -/
inductive Colour where
  | palette (n : UInt8)
  | rgb (r g b : UInt8)
deriving DecidableEq, Repr

namespace Colour

/-- The operands of the selector. -/
def operands : Colour → List Int
  | .palette n => [n.toNat]
  | .rgb r g b => [r.toNat, g.toNat, b.toNat]

/-- 5 or 2, and the operands. -/
def numbers : Colour → List Int
  | .palette n => [5, n.toNat]
  | .rgb r g b => [2, r.toNat, g.toNat, b.toNat]

end Colour

/-- An extended colour selector. -/
structure Selector where
  background : Bool
  colour : Colour
deriving DecidableEq, Repr

/-- All its numbers, from 38 or 48 on. -/
def Selector.numbers (x : Selector) : List Int :=
  (if x.background then 48 else 38) :: x.colour.numbers

/-- The texts are digits, and they are read as these numbers. -/
def WrittenAs (texts : List (List UInt8)) (ns : List Int) : Prop :=
  (∀ d ∈ texts, Digits d) ∧ texts.map (readDigits 0) = ns

instance (texts : List (List UInt8)) (ns : List Int) : Decidable (WrittenAs texts ns) :=
  inferInstanceAs (Decidable (_ ∧ _))

/-- A number below 1000 in decimal. -/
def decimalText (n : Nat) : List UInt8 :=
  let digit (k : Nat) : UInt8 := UInt8.ofNat (48 + k % 10)
  if n < 10 then [digit n]
  else if n < 100 then [digit (n / 10), digit n]
  else [digit (n / 100), digit (n / 10), digit n]

/-- The numbers of a selector as they are usually written. -/
def Selector.texts (x : Selector) : List (List UInt8) := x.numbers.map fun p => decimalText p.toNat

theorem decimalText_read : ∀ n < 256, Digits (decimalText n) ∧ readDigits 0 (decimalText n) = n := by
  decide +kernel

/-- Every selector can be written. -/
theorem writtenAs_texts (x : Selector) : WrittenAs x.texts x.numbers := by
  have hbyte : ∀ p ∈ x.numbers, ∃ n : Nat, n < 256 ∧ p = n := by
    have hlt (n : UInt8) : n.toNat < 256 := n.toNat_lt
    obtain ⟨background, colour⟩ := x
    intro p hp
    rcases List.mem_cons.mp hp with rfl | hp
    · cases background
      · exact ⟨38, by decide, rfl⟩
      · exact ⟨48, by decide, rfl⟩
    cases colour with
    | palette n =>
        rcases List.mem_cons.mp hp with rfl | hp
        · exact ⟨5, by decide, rfl⟩
        · exact ⟨n.toNat, hlt n, List.mem_singleton.mp hp⟩
    | rgb r g b =>
        rcases List.mem_cons.mp hp with rfl | hp
        · exact ⟨2, by decide, rfl⟩
        rcases List.mem_cons.mp hp with rfl | hp
        · exact ⟨r.toNat, hlt r, rfl⟩
        rcases List.mem_cons.mp hp with rfl | hp
        · exact ⟨g.toNat, hlt g, rfl⟩
        · exact ⟨b.toNat, hlt b, List.mem_singleton.mp hp⟩
  refine ⟨fun d hd => ?_, ?_⟩
  · obtain ⟨p, hp, rfl⟩ := List.mem_map.mp hd
    obtain ⟨n, hn, rfl⟩ := hbyte p hp
    exact (decimalText_read n hn).1
  · rw [Selector.texts, List.map_map]
    refine (List.map_congr_left fun p hp => ?_).trans (List.map_id _)
    obtain ⟨n, hn, rfl⟩ := hbyte p hp
    exact (decimalText_read n hn).2

/-! ## What the numbers set -/

def foregroundOf (p : Int) : Option UInt8 :=
  if p = 0 ∨ p = 39 then some colorWhite
  else if 30 ≤ p ∧ p ≤ 37 then some (a2v (p - 30))
  else if 90 ≤ p ∧ p ≤ 97 then some (a2v (p - 90) ||| 8)
  else none

def backgroundOf (p : Int) : Option UInt8 :=
  if p = 0 ∨ p = 49 then some colorBlack
  else if 40 ≤ p ∧ p ≤ 47 then some (a2v (p - 40))
  else if 100 ≤ p ∧ p ≤ 107 then some (a2v (p - 100) ||| 8)
  else none

def boldOf (p : Int) : Option UInt8 :=
  if p = 0 ∨ p = 22 then some 0 else if p = 1 then some 8 else none

def standoutOf (p : Int) : Option Bool :=
  if p = 0 ∨ p = 27 then some false else if p = 7 then some true else none

/-- The attribute `f`, which was `v`, after the numbers: the last one that
sets it counts. -/
def lastSet {α : Type} (f : Int → Option α) (ps : List Int) (v : α) : α :=
  ps.foldl (fun v p => (f p).getD v) v

/-- The pen after the numbers. -/
def penAfter (pen : Pen) (ps : List Int) : Pen where
  curFg := lastSet foregroundOf ps pen.curFg
  curBg := lastSet backgroundOf ps pen.curBg
  curBold := lastSet boldOf ps pen.curBold
  ansiStandout := lastSet standoutOf ps pen.ansiStandout

/-! ## The claim and its condition -/

/-- The pens differ in the selected colour only. -/
def Selector.Leaves (x : Selector) (pen pen' : Pen) : Prop :=
  pen'.curBold = pen.curBold ∧ pen'.ansiStandout = pen.ansiStandout ∧
    if x.background then pen'.curFg = pen.curFg else pen'.curBg = pen.curBg

/-- The bytes `own` of the selector leave the rest of the pen alone, and if
numbers follow it (`whole`), it is as if they had been in a sequence of their
own behind it (`further`). -/
def OwnColourOnly (x : Selector) (s : Statics) (rest : List (List UInt8))
    (own whole further : List (UInt8 × UInt8)) : Prop :=
  (printAll s own).Returns (fun s' => x.Leaves s.pen s'.pen) ∧
    (rest ≠ [] → (printAll s whole).Returns fun s₁ =>
      (printAll s (own ++ further)).Returns fun s₂ => s₁.pen = s₂.pen)

/-- The operands, read as attributes, set nothing but the selected colour to
anything new. -/
def Selector.OperandsHarmless (x : Selector) (pen : Pen) : Prop :=
  lastSet boldOf x.colour.operands pen.curBold = pen.curBold ∧
    lastSet standoutOf x.colour.operands pen.ansiStandout = pen.ansiStandout ∧
    if x.background then lastSet foregroundOf x.colour.operands pen.curFg = pen.curFg
    else lastSet backgroundOf x.colour.operands pen.curBg = pen.curBg

/-- The number that the digits stand for. -/
def written (ds : List UInt8) : Nat := ds.foldl (fun v c => v * 10 + (c.toNat - 48)) 0

/-- One number as it counts, and several that are run together. -/
def numberOf (ds : List UInt8) : Int := min (written ds) 999
def runTogether (ds : List (List UInt8)) : Int := numberOf ds.flatten

/-- The numbers of a sequence as they count: the eighth and all behind it are
one. -/
def numbersOf (ds : List (List UInt8)) : List Int :=
  (ds.take 7).map numberOf ++ if 7 < ds.length then [runTogether (ds.drop 7)] else []

/-- What the last of the numbers that sets the attribute `f` sets it to. -/
def lastOf {α : Type} (f : Int → Option α) (ps : List Int) : Option α := (ps.filterMap f).getLast?

/-- The numbers `ps` set each attribute to what the numbers `qs` set it to, or
leave it as it is in the pen where those do. -/
def SetAlike (pen : Pen) (ps qs : List Int) : Prop :=
  (lastOf foregroundOf ps).getD pen.curFg = (lastOf foregroundOf qs).getD pen.curFg ∧
    (lastOf backgroundOf ps).getD pen.curBg = (lastOf backgroundOf qs).getD pen.curBg ∧
    (lastOf boldOf ps).getD pen.curBold = (lastOf boldOf qs).getD pen.curBold ∧
    (lastOf standoutOf ps).getD pen.ansiStandout = (lastOf standoutOf qs).getD pen.ansiStandout

/-- How many of the numbers behind a selector are read by themselves when
there are too many. -/
def Selector.room (x : Selector) : Nat := 7 - x.numbers.length

/-- There is room for all the numbers, or those from the eighth on, run
together, set what they would have set. -/
def Selector.FurtherHarmless (x : Selector) (pen : Pen) (rest : List (List UInt8)) : Prop :=
  x.numbers.length + rest.length ≤ 8 ∨
    SetAlike (penAfter pen (x.colour.operands ++ (rest.take x.room).map numberOf))
      [runTogether (rest.drop x.room)] ((numbersOf rest).drop x.room)

section Attributes

variable {s : Statics} {pen : Pen} {p : Nat → Int} {n : Nat}

/-- A number sets each attribute by itself. -/
theorem setAttr_eq (pen : Pen) (p : Int) : setAttr pen p = penAfter pen [p] := by
  show setAttr pen p = {
    curFg := (foregroundOf p).getD pen.curFg
    curBg := (backgroundOf p).getD pen.curBg
    curBold := (boldOf p).getD pen.curBold
    ansiStandout := (standoutOf p).getD pen.ansiStandout }
  unfold setAttr foregroundOf backgroundOf boldOf standoutOf
  -- the numbers that stand alone
  by_cases h0 : p = 0
  · subst h0; rfl
  by_cases h1 : p = 1
  · subst h1; rfl
  by_cases h22 : p = 22
  · subst h22; rfl
  by_cases h7 : p = 7
  · subst h7; rfl
  by_cases h27 : p = 27
  · subst h27; rfl
  by_cases h39 : p = 39
  · subst h39; rfl
  by_cases h49 : p = 49
  · subst h49; rfl
  simp only [h0, h1, h22, h7, h27, h39, h49, or_self, if_false, ge_iff_le]
  -- the four groups of eight
  by_cases hfg : 30 ≤ p ∧ p ≤ 37
  · have hbg : ¬(40 ≤ p ∧ p ≤ 47) ∧ ¬(100 ≤ p ∧ p ≤ 107) := by omega
    rw [if_pos hfg, if_pos hfg, if_neg hbg.1, if_neg hbg.2]
    rfl
  rw [if_neg hfg, if_neg hfg]
  by_cases hbright : 90 ≤ p ∧ p ≤ 97
  · have hbg : ¬(40 ≤ p ∧ p ≤ 47) ∧ ¬(100 ≤ p ∧ p ≤ 107) := by omega
    rw [if_pos hbright, if_pos hbright, if_neg hbg.1, if_neg hbg.2]
    rfl
  rw [if_neg hbright, if_neg hbright]
  by_cases hbg : 40 ≤ p ∧ p ≤ 47
  · rw [if_pos hbg, if_pos hbg]
    rfl
  rw [if_neg hbg, if_neg hbg]
  by_cases hlast : 100 ≤ p ∧ p ≤ 107
  · rw [if_pos hlast, if_pos hlast]
    rfl
  · rw [if_neg hlast, if_neg hlast]
    rfl

theorem lastSet_append {α : Type} (f : Int → Option α) (ps qs : List Int) (v : α) :
    lastSet f (ps ++ qs) v = lastSet f qs (lastSet f ps v) := List.foldl_append

theorem lastSet_eq {α : Type} (f : Int → Option α) (ps : List Int) (v : α) :
    lastSet f ps v = (lastOf f ps).getD v := by
  induction ps using List.reverseRec with
  | nil => rfl
  | append_singleton ps p ih =>
      rw [lastSet_append, ih]
      show (f p).getD _ = _
      unfold lastOf
      rw [List.filterMap_append, List.filterMap_cons, List.filterMap_nil]
      cases f p with
      | none => rw [List.append_nil]; rfl
      | some a => rw [List.getLast?_concat]; rfl

theorem penAfter_eq_iff {pen : Pen} {ps qs : List Int} :
    penAfter pen ps = penAfter pen qs ↔ SetAlike pen ps qs := by
  unfold penAfter SetAlike
  simp only [Pen.mk.injEq, lastSet_eq]

theorem penAfter_append (pen : Pen) (ps qs : List Int) :
    penAfter pen (ps ++ qs) = penAfter (penAfter pen ps) qs := by
  unfold penAfter
  simp only [lastSet_append]

/-- The numbers of a sequence, one after the other. -/
theorem foldl_setAttr (pen : Pen) (ps : List Int) : ps.foldl setAttr pen = penAfter pen ps := by
  induction ps generalizing pen with
  | nil => rfl
  | cons p ps ih =>
      rw [List.foldl_cons, ih, setAttr_eq, ← penAfter_append]
      rfl

/-- What `m` does. -/
theorem ansiCsi_colours (hn : n ≤ 7) :
    ansiCsi (withParams s p n false) 109 =
      .ret { withParams s p n false with pen := penAfter s.pen (paramsOf p n) } := by
  have hfirst : ∃ v, ansiParam (withParams s p n false) 0 0 = .ret v := by
    have hinside : ¬((0 : Int) < 0 ∨ (0 : Int) > n) := by omega
    exact ⟨_, if_neg hinside⟩
  obtain ⟨v, hv⟩ := hfirst
  have hfinal : ansiFinal (withParams s p n false) 109 v = setAttrs (withParams s p n false) := rfl
  have hloop (l : List Nat) (pen : Pen) (hl : ∀ i ∈ l, i < 8) :
      l.foldlM (fun (s : Statics) (i : Nat) => do
        let p ← paramAt s i
        .ret { s with pen := setAttr s.pen p }) { withParams s p n false with pen := pen } =
        .ret { withParams s p n false with pen := (l.map p).foldl setAttr pen } := by
    induction l generalizing pen with
    | nil => rfl
    | cons i l ih =>
        have hi := hl i List.mem_cons_self
        have hparam : paramAt { withParams s p n false with pen := pen } i = .ret (p i) := by
          refine (if_pos (by omega)).trans ?_
          rw [Int.toNat_natCast]
          rfl
        rw [List.foldlM_cons, hparam, Exec.ret_bind, Exec.ret_bind]
        exact ih (setAttr pen (p i)) fun j hj => hl j (List.mem_cons_of_mem i hj)
  have hcount : ((withParams s p n false).ansiNparams + 1).toNat = n + 1 := Int.toNat_natCast (n + 1)
  rw [ansiCsi, hv, Exec.ret_bind, hfinal, setAttrs, hcount, ← foldl_setAttr]
  exact hloop _ s.pen fun i hi => by rw [List.mem_range] at hi; omega

/-- A sequence `m` printed in state 0. -/
theorem print_colours {ds : List (List UInt8)} {bytes : List (UInt8 × UInt8)}
    (hnormal : s.ansiState = .normal) (hds : ∀ d ∈ ds, Digits d)
    (hbytes : bytes.map Prod.fst = sequence ds 109) :
    (printAll s bytes).Returns fun s' =>
      s'.ansiState = .normal ∧ s'.pen = penAfter s.pen (kept ds) := by
  obtain ⟨p, n, hprint, hn, hparams⟩ := print_sequence hnormal hds (by decide) hbytes
  refine ⟨_, hprint.trans (ansiCsi_colours hn), hnormal, ?_⟩
  rw [← hparams]

end Attributes

/-! ## Numbers -/

section Numbers

variable {d : List UInt8} {ds : List (List UInt8)}

theorem readDigits_append (v : Int) (d d' : List UInt8) : readDigits (readDigits v d) d' = readDigits v (d ++ d') :=
  (List.foldl_append ..).symm

/-- Cutting a number to 999 as its digits come is cutting it in the end. -/
theorem readDigits_eq (hd : Digits d) : readDigits 0 d = numberOf d := by
  induction d using List.reverseRec with
  | nil => rfl
  | append_singleton d c ih =>
      have hc := hd c (List.mem_append_right _ (List.mem_singleton_self c))
      have hge : 48 ≤ c.toNat := UInt8.le_iff_toNat_le.mp hc.1
      rw [← readDigits_append, ih fun b hb => hd b (List.mem_append_left _ hb)]
      show min (numberOf d * 10 + ((c.toNat : Int) - 48)) 999 = numberOf (d ++ [c])
      have hwritten : written (d ++ [c]) = written d * 10 + (c.toNat - 48) := by
        unfold written
        rw [List.foldl_append]
        rfl
      unfold numberOf
      rw [hwritten]
      omega

theorem digits_flatten (hds : ∀ d ∈ ds, Digits d) : Digits ds.flatten := by
  intro c hc
  obtain ⟨d, hd, hc⟩ := List.mem_flatten.mp hc
  exact hds d hd c hc

/-- The last parameter takes all the digits that are left. -/
theorem keptFrom_zero (v : Int) (ds : List (List UInt8)) : keptFrom v 0 ds = [readDigits v ds.flatten] := by
  induction ds generalizing v with
  | nil => rfl
  | cons d ds ih => rw [keptFrom, ih, readDigits_append, List.flatten_cons]

theorem keptFrom_of_lt {v : Int} {room : Nat} (h : room < ds.length) :
    keptFrom v (room + 1) ds = v :: (ds.take room).map (readDigits 0) ++ [readDigits 0 (ds.drop room).flatten] := by
  induction room generalizing v ds with
  | zero =>
      obtain ⟨d, ds, rfl⟩ := List.exists_cons_of_length_pos h
      rw [keptFrom, keptFrom_zero, readDigits_append]
      rfl
  | succ room ih =>
      obtain ⟨d, ds, rfl⟩ := List.exists_cons_of_length_pos (Nat.zero_lt_of_lt h)
      rw [keptFrom, ih (Nat.lt_of_succ_lt_succ h)]
      rfl

/-- What `print_char` keeps of the numbers. -/
theorem kept_eq (hne : ds ≠ []) (hds : ∀ d ∈ ds, Digits d) : kept ds = numbersOf ds := by
  have hmap (l : List (List UInt8)) (hl : ∀ d ∈ l, Digits d) : l.map (readDigits 0) = l.map numberOf :=
    List.map_congr_left fun d hd => readDigits_eq (hl d hd)
  have htake : ∀ d ∈ ds.take 7, Digits d := fun d hd => hds d (List.mem_of_mem_take hd)
  have hdrop : ∀ d ∈ ds.drop 7, Digits d := fun d hd => hds d (List.mem_of_mem_drop hd)
  unfold numbersOf
  by_cases hmany : 7 < ds.length
  · rw [if_pos hmany, ← hmap _ htake, runTogether, ← readDigits_eq (digits_flatten hdrop)]
    obtain ⟨d, ds, rfl⟩ := List.exists_cons_of_ne_nil hne
    exact keptFrom_of_lt (Nat.lt_of_succ_lt_succ hmany)
  · have hle : ds.length ≤ 7 := Nat.le_of_not_lt hmany
    rw [if_neg hmany, List.append_nil, List.take_of_length_le hle, kept_of_le hne (Nat.le_succ_of_le hle), hmap _ hds]

end Numbers

/-! ## Selectors -/

section Selectors

variable {s : Statics} {x : Selector} {texts rest : List (List UInt8)} {pen : Pen}

/-- Only the operands count. -/
theorem penAfter_numbers (x : Selector) (pen : Pen) :
    penAfter pen x.numbers = penAfter pen x.colour.operands := by
  obtain ⟨background, colour⟩ := x
  cases background <;> cases colour <;> rfl

theorem kept_selector (hw : WrittenAs texts x.numbers) : kept texts = x.numbers := by
  have hlen : texts.length = x.numbers.length := by rw [← hw.2, List.length_map]
  have hshort : 0 < x.numbers.length ∧ x.numbers.length ≤ 8 := by
    obtain ⟨background, colour⟩ := x
    cases colour with
    | palette n => exact ⟨Nat.succ_pos _, (by decide : 3 ≤ 8)⟩
    | rgb r g b => exact ⟨Nat.succ_pos _, (by decide : 5 ≤ 8)⟩
  have hne : texts ≠ [] := by
    rintro rfl
    rw [← hlen] at hshort
    exact absurd hshort.1 (Nat.lt_irrefl 0)
  rw [kept_of_le hne (by omega), hw.2]

/-- With room for all the numbers nothing is lost. -/
theorem kept_append (hne : texts ≠ []) (hne' : rest ≠ []) (h : texts.length + rest.length ≤ 8) :
    kept (texts ++ rest) = kept texts ++ kept rest := by
  rw [kept_of_le (by simp [hne]) (by rw [List.length_append]; exact h), kept_of_le hne (by omega),
    kept_of_le hne' (by omega), List.map_append]

theorem length_numbers (x : Selector) : 3 ≤ x.numbers.length ∧ x.numbers.length ≤ 5 := by
  obtain ⟨background, colour⟩ := x
  cases colour with
  | palette n => exact ⟨Nat.le_refl 3, by show 3 ≤ 5; decide⟩
  | rgb r g b => exact ⟨by show 3 ≤ 5; decide, Nat.le_refl 5⟩

/-- Too many numbers: the first of the further ones are read by themselves,
and the others run together. -/
theorem kept_too_many (hw : WrittenAs texts x.numbers) (hrest : ∀ d ∈ rest, Digits d)
    (hmany : 8 < x.numbers.length + rest.length) :
    kept (texts ++ rest) = x.numbers ++ (rest.take x.room).map numberOf ++ [runTogether (rest.drop x.room)] := by
  have hlen : texts.length = x.numbers.length := by rw [← hw.2, List.length_map]
  obtain ⟨hge, hle⟩ := length_numbers x
  have hne : texts ≠ [] := List.ne_nil_of_length_pos (by omega)
  have hall : ∀ d ∈ texts ++ rest, Digits d := by
    intro d hd
    rcases List.mem_append.mp hd with hd | hd
    · exact hw.1 d hd
    · exact hrest d hd
  have hnumbers : texts.map numberOf = x.numbers := by
    rw [← hw.2]
    exact List.map_congr_left fun d hd => (readDigits_eq (hw.1 d hd)).symm
  have htake : (texts ++ rest).take 7 = texts ++ rest.take x.room := by
    rw [List.take_append, List.take_of_length_le (by omega), hlen]
    rfl
  have hdrop : (texts ++ rest).drop 7 = rest.drop x.room := by
    rw [List.drop_append, List.drop_of_length_le (by omega), hlen, List.nil_append]
    rfl
  have htotal : 7 < (texts ++ rest).length := by
    rw [List.length_append]
    omega
  rw [kept_eq (List.append_ne_nil_of_left_ne_nil hne _) hall, numbersOf, if_pos htotal, htake, hdrop, List.map_append,
    hnumbers]

theorem furtherHarmless_iff (hw : WrittenAs texts x.numbers) (hrest : ∀ d ∈ rest, Digits d) (hne' : rest ≠ []) :
    penAfter pen (kept (texts ++ rest)) = penAfter pen (kept texts ++ kept rest) ↔ x.FurtherHarmless pen rest := by
  have hlen : texts.length = x.numbers.length := by rw [← hw.2, List.length_map]
  obtain ⟨hge, hle⟩ := length_numbers x
  have hne : texts ≠ [] := List.ne_nil_of_length_pos (by omega)
  unfold Selector.FurtherHarmless
  by_cases hfits : x.numbers.length + rest.length ≤ 8
  · rw [kept_append hne hne' (by omega)]
    exact iff_of_true rfl (.inl hfits)
  · have hroom : x.room < rest.length := by
      unfold Selector.room
      omega
    have htake : (numbersOf rest).take x.room = (rest.take x.room).map numberOf := by
      have hsmall : x.room ≤ ((rest.take 7).map numberOf).length := by
        rw [List.length_map, List.length_take]
        unfold Selector.room at hroom ⊢
        omega
      have hmin : min x.room 7 = x.room := Nat.min_eq_left (Nat.sub_le _ _)
      rw [numbersOf, List.take_append_of_le_length hsmall, ← List.map_take, List.take_take, hmin]
    have hoperands (ps : List Int) : penAfter pen (x.numbers ++ ps) = penAfter pen (x.colour.operands ++ ps) := by
      rw [penAfter_append, penAfter_numbers, ← penAfter_append]
    have hbefore (ps : List Int) : penAfter pen (x.numbers ++ (rest.take x.room).map numberOf ++ ps) =
        penAfter (penAfter pen (x.colour.operands ++ (rest.take x.room).map numberOf)) ps := by
      rw [penAfter_append, hoperands]
    have halone : x.numbers ++ numbersOf rest =
        x.numbers ++ (rest.take x.room).map numberOf ++ (numbersOf rest).drop x.room := by
      rw [List.append_assoc, ← htake, List.take_append_drop]
    rw [or_iff_right hfits, kept_too_many hw hrest (Nat.lt_of_not_le hfits), kept_selector hw, kept_eq hne' hrest,
      halone, hbefore, hbefore]
    exact penAfter_eq_iff

/-- In state 0. -/
theorem colours_of_normal {own whole further : List (UInt8 × UInt8)}
    (hnormal : s.ansiState = .normal) (hw : WrittenAs texts x.numbers) (hrest : ∀ d ∈ rest, Digits d)
    (hown : own.map Prod.fst = sequence texts 109)
    (hwhole : whole.map Prod.fst = sequence (texts ++ rest) 109)
    (hfurther : further.map Prod.fst = sequence rest 109) :
    OwnColourOnly x s rest own whole further ↔
      x.OperandsHarmless s.pen ∧ x.FurtherHarmless s.pen rest := by
  have hall : ∀ d ∈ texts ++ rest, Digits d := by
    intro d hd
    rcases List.mem_append.mp hd with hd | hd
    · exact hw.1 d hd
    · exact hrest d hd
  obtain ⟨s₀, hs₀, hstate₀, hpen₀⟩ := print_colours hnormal hw.1 hown
  obtain ⟨s₁, hs₁, _, hpen₁⟩ := print_colours hnormal hall hwhole
  obtain ⟨s₂, hs₂, _, hpen₂⟩ := print_colours hstate₀ hrest hfurther
  have hboth : printAll s (own ++ further) = .ret s₂ := by
    rw [printAll_append, hs₀, Exec.ret_bind, hs₂]
  unfold OwnColourOnly
  rw [returns_iff_of_eq hs₀, returns_iff_of_eq hs₁, returns_iff_of_eq hboth, hpen₁, hpen₂, hpen₀,
    ← penAfter_append]
  refine and_congr ?_ ?_
  · rw [kept_selector hw, penAfter_numbers]
    exact Iff.rfl
  · by_cases hempty : rest = []
    · have hfits : x.numbers.length + rest.length ≤ 8 := by
        rw [hempty]
        exact Nat.le_trans (length_numbers x).2 (by decide)
      exact iff_of_true (fun hne' => absurd hempty hne') (.inl hfits)
    · rw [forall_prop_of_true hempty, furtherHarmless_iff hw hrest hempty]

/-- While another sequence is open, the first ESC ends that: of the whole
nothing is read, and of the two in a row the second. -/
theorem colours_of_open {own whole further : List (UInt8 × UInt8)} (h : InRange s)
    (hopen : s.ansiState ≠ .normal) (hw : WrittenAs texts x.numbers) (hrest : ∀ d ∈ rest, Digits d)
    (hown : own.map Prod.fst = sequence texts 109)
    (hwhole : whole.map Prod.fst = sequence (texts ++ rest) 109)
    (hfurther : further.map Prod.fst = sequence rest 109) :
    OwnColourOnly x s rest own whole further ↔
      (rest = [] ∨ SetAlike s.pen (numbersOf rest) []) := by
  have hall : ∀ d ∈ texts ++ rest, Digits d := by
    intro d hd
    rcases List.mem_append.mp hd with hd | hd
    · exact hw.1 d hd
    · exact hrest d hd
  obtain ⟨s₀, hs₀, hstate₀, hpen₀, _⟩ := print_aborted h hopen hw.1 (by decide) hown
  obtain ⟨s₁, hs₁, _, hpen₁, _⟩ := print_aborted h hopen hall (by decide) hwhole
  obtain ⟨s₂, hs₂, _, hpen₂⟩ := print_colours hstate₀ hrest hfurther
  have hboth : printAll s (own ++ further) = .ret s₂ := by
    rw [printAll_append, hs₀, Exec.ret_bind, hs₂]
  unfold OwnColourOnly
  rw [returns_iff_of_eq hs₀, returns_iff_of_eq hs₁, returns_iff_of_eq hboth, hpen₁, hpen₂, hpen₀]
  have hleaves : x.Leaves s.pen s.pen := by
    refine ⟨rfl, rfl, ?_⟩
    split <;> rfl
  rw [and_iff_right hleaves]
  by_cases hempty : rest = []
  · exact iff_of_true (fun hne' => absurd hempty hne') (.inl hempty)
  · rw [forall_prop_of_true hempty, or_iff_right hempty, kept_eq hempty hrest, ← penAfter_eq_iff]
    exact eq_comm

end Selectors

/-- An extended colour selector touches only its colour, and the numbers
behind it have their own effect, exactly if its operands are harmless and
there is room for the numbers (or what they run together to sets the same).
While another sequence is open the selector is text, and it is the numbers
behind it that must set nothing new. -/
theorem colours_iff (x : Selector) {s : Statics} {texts rest : List (List UInt8)}
    {own whole further : List (UInt8 × UInt8)} (h : InRange s) (hw : WrittenAs texts x.numbers)
    (hrest : ∀ d ∈ rest, Digits d) (hown : own.map Prod.fst = sequence texts 109)
    (hwhole : whole.map Prod.fst = sequence (texts ++ rest) 109)
    (hfurther : further.map Prod.fst = sequence rest 109) :
    OwnColourOnly x s rest own whole further ↔
      if s.ansiState = .normal then x.OperandsHarmless s.pen ∧ x.FurtherHarmless s.pen rest
      else rest = [] ∨ SetAlike s.pen (numbersOf rest) [] := by
  split
  · rename_i hnormal
    exact colours_of_normal hnormal hw hrest hown hwhole hfurther
  · rename_i hopen
    exact colours_of_open h hopen hw hrest hown hwhole hfurther

/-- `38;5;208` and `38;5;1` -/
def orange : List (List UInt8) := [[51, 56], [53], [50, 48, 56]]
def maroon : List (List UInt8) := [[51, 56], [53], [49]]

/-- The bytes in the colour of the console. -/
def inWhite (bytes : List UInt8) : List (UInt8 × UInt8) := bytes.map fun c => (c, colorWhite)

/-- 208 is no attribute, and underline (4) behind it is as on its own. -/
theorem orange_touches_foreground :
    OwnColourOnly ⟨false, .palette 208⟩ (bootStatics (.fb fun _ => 0)) [[52]]
      (inWhite (sequence orange 109)) (inWhite (sequence (orange ++ [[52]]) 109))
      (inWhite (sequence [[52]] 109)) := by
  have hw : WrittenAs orange (Selector.numbers ⟨false, .palette 208⟩) := by decide
  have hfits : (Selector.numbers ⟨false, .palette 208⟩).length + [[(52 : UInt8)]].length ≤ 8 := by decide
  exact (colours_iff ⟨false, .palette 208⟩ (inRange_boot _) hw (by decide) rfl rfl rfl).mpr
    ⟨⟨rfl, rfl, rfl⟩, .inl hfits⟩

/-- `ESC [ 38 ; 5 ; 1 m` makes the text bold. -/
theorem maroon_is_bold : ¬∀ (x : Selector) (s : Statics) (texts rest : List (List UInt8))
    (own whole further : List (UInt8 × UInt8)), InRange s → s.ansiState = .normal →
      WrittenAs texts x.numbers → (∀ d ∈ rest, Digits d) → own.map Prod.fst = sequence texts 109 →
      whole.map Prod.fst = sequence (texts ++ rest) 109 → further.map Prod.fst = sequence rest 109 →
      OwnColourOnly x s rest own whole further := by
  intro hall
  have hw : WrittenAs maroon (Selector.numbers ⟨false, .palette 1⟩) := by decide
  have hmaroon := hall ⟨false, .palette 1⟩ (bootStatics (.fb fun _ => 0)) maroon []
    (inWhite (sequence maroon 109)) (inWhite (sequence (maroon ++ []) 109))
    (inWhite (sequence [] 109)) (inRange_boot _) rfl hw (by decide) rfl rfl rfl
  have hharmless := (colours_of_normal rfl hw (by decide) rfl rfl rfl).mp hmaroon
  exact absurd hharmless.1.1 (by decide)

end LiteBSD.Tty
