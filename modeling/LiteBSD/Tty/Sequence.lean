/-
# `LiteBSD.Tty.Sequence` — what a control sequence is read as

A control sequence is `ESC [`, numbers with `;` between them, and a letter.
`print_char` keeps eight numbers, each cut down to 999 while its digits are
read.  A `;` behind the eighth is ignored, so the digits of all later numbers
are further digits of the eighth (`keptFrom`).

  * `print_params` says what the parameters are once the numbers have been
    printed, whatever the numbers and however many;
  * `print_text` says what becomes of the bytes of a sequence when its ESC
    does not count, because it ends a sequence that was open: they are text,
    and the cursor moves on by one column for each.
-/
import LiteBSD.Tty.Alternate

namespace LiteBSD.Tty

/-- The digits of one number; there may be none. -/
def Digits (ds : List UInt8) : Prop := ∀ c ∈ ds, 48 ≤ c ∧ c ≤ 57

instance (ds : List UInt8) : Decidable (Digits ds) := List.decidableBAll _ ds

/-- More digits of a number that is `v` so far. -/
def readDigits (v : Int) (ds : List UInt8) : Int :=
  ds.foldl (fun v c => min (v * 10 + (c.toNat - 48)) 999) v

/-- The parameters of the rest of a sequence: `v` is the one that is being
read, and there is room for `room` more. -/
def keptFrom (v : Int) : Nat → List (List UInt8) → List Int
  | _, [] => [v]
  | room + 1, d :: ds => v :: keptFrom (readDigits 0 d) room ds
  | 0, d :: ds => keptFrom (readDigits v d) 0 ds

/-- The parameters that a list of numbers is read as. -/
def kept : List (List UInt8) → List Int
  | [] => [0]
  | d :: ds => keptFrom (readDigits 0 d) 7 ds

/-- Numbers with `;` between them. -/
def joined : List (List UInt8) → List UInt8
  | [] => []
  | d :: ds => d ++ ds.flatMap (59 :: ·)

/-- `ESC [`, the numbers and the letter. -/
def sequence (ds : List (List UInt8)) (final : UInt8) : List UInt8 := 27 :: 91 :: joined ds ++ [final]

/-- In a sequence, with the parameters read so far. -/
def inSequence (s : Statics) (params : Nat → Int) (nparams : Nat) : Statics :=
  { withParams s params nparams false with ansiState := .csi }

/-- What a computation returns is known. -/
theorem returns_iff_of_eq {α : Type} {x : Exec α} {a : α} {Q : α → Prop} (h : x = .ret a) :
    x.Returns Q ↔ Q a := by
  refine ⟨?_, fun hQ => ⟨a, h, hQ⟩⟩
  rintro ⟨b, hb, hQ⟩
  cases h.symm.trans hb
  exact hQ

section Reading

variable {s : Statics} {p : Nat → Int} {n : Nat} {c color : UInt8}

/-- With at most eight numbers, each is a parameter. -/
theorem keptFrom_of_le {v : Int} {room : Nat} {ds : List (List UInt8)} (h : ds.length ≤ room) :
    keptFrom v room ds = v :: ds.map (readDigits 0) := by
  induction ds generalizing v room with
  | nil => cases room <;> rfl
  | cons d ds ih =>
      obtain ⟨room, rfl⟩ : ∃ r, room = r + 1 := ⟨room - 1, by rw [List.length_cons] at h; omega⟩
      rw [keptFrom, ih (Nat.le_of_succ_le_succ h), List.map_cons]

theorem kept_of_le {ds : List (List UInt8)} (hne : ds ≠ []) (h : ds.length ≤ 8) :
    kept ds = ds.map (readDigits 0) := by
  cases ds with
  | nil => exact absurd rfl hne
  | cons d ds => exact keptFrom_of_le (Nat.le_of_succ_le_succ h)

theorem inSequence_param (hn : n ≤ 7) : paramAt (inSequence s p n) n = .ret (p n) := by
  refine (if_pos (by omega)).trans ?_
  rw [Int.toNat_natCast]
  rfl

theorem inSequence_set (hn : n ≤ 7) (v : Int) :
    setParam (inSequence s p n) n v = .ret (inSequence s (Function.update p n v) n) := by
  refine (if_pos (by omega)).trans ?_
  rw [Int.toNat_natCast]
  rfl

/-- A digit belongs to the number that is being read. -/
theorem printChar_inDigit (hn : n ≤ 7) (hc : 48 ≤ c ∧ c ≤ 57) :
    printChar (inSequence s p n) c color =
      .ret (inSequence s (Function.update p n (readDigits (p n) [c])) n) := by
  have hquestion : c ≠ 63 := fun h => absurd (h ▸ hc.2) (by decide)
  have hbyte : printChar (inSequence s p n) c color = csiByte (inSequence s p n) c := rfl
  have hnparams : (inSequence s p n).ansiNparams = n := rfl
  have hzero : paramAt (inSequence s p n) 0 = .ret (p 0) := rfl
  rw [hbyte, csiByte, hzero, Exec.ret_bind, if_neg fun h => hquestion h.1, if_pos hc, hnparams,
    inSequence_param hn, Exec.ret_bind, inSequence_set hn]
  rfl

/-- A `;` begins the next number, if there is room for one. -/
theorem printChar_semicolon (hn : n ≤ 7) :
    printChar (inSequence s p n) 59 color =
      .ret (if n < 7 then inSequence s (Function.update p (n + 1) 0) (n + 1)
        else inSequence s p n) := by
  have hbyte : printChar (inSequence s p n) 59 color = csiByte (inSequence s p n) 59 := rfl
  have hnparams : (inSequence s p n).ansiNparams = n := rfl
  have hzero : paramAt (inSequence s p n) 0 = .ret (p 0) := rfl
  rw [hbyte, csiByte, hzero, Exec.ret_bind, if_neg fun h => absurd h.1 (by decide),
    if_neg (by decide), if_pos rfl, hnparams]
  by_cases hroom : n < 7
  · rw [if_pos hroom, if_pos (by omega)]
    have hnext : { inSequence s p n with ansiNparams := (n : Int) + 1 } = inSequence s p (n + 1) := by
      unfold inSequence withParams
      rw [Int.natCast_add]
      rfl
    have hindex : (n : Int) + 1 = ((n + 1 : Nat) : Int) := rfl
    rw [hnext, hindex, inSequence_set (by omega)]
  · rw [if_neg hroom, if_neg (by omega)]

theorem print_digits {bytes : List (UInt8 × UInt8)} (hn : n ≤ 7) (hds : Digits (bytes.map Prod.fst)) :
    printAll (inSequence s p n) bytes =
      .ret (inSequence s (Function.update p n (readDigits (p n) (bytes.map Prod.fst))) n) := by
  induction bytes generalizing p with
  | nil =>
      rw [show readDigits (p n) (([] : List (UInt8 × UInt8)).map Prod.fst) = p n from rfl,
        Function.update_eq_self]
      rfl
  | cons b bytes ih =>
      have hfirst := hds b.1 List.mem_cons_self
      show (printChar _ b.1 b.2 >>= fun s' => printAll s' bytes) = _
      rw [printChar_inDigit hn hfirst, Exec.ret_bind,
        ih fun c hc => hds c (List.mem_cons_of_mem b.1 hc), Function.update_self,
        Function.update_idem]
      rfl

/-- The parameters so far, with the one that is being read. -/
def paramsOf (p : Nat → Int) (n : Nat) : List Int := (List.range (n + 1)).map p

theorem paramsOf_eq (p : Nat → Int) (n : Nat) :
    paramsOf p n = (List.range n).map p ++ [p n] := by
  rw [paramsOf, List.range_succ, List.map_append]
  rfl

theorem map_range_update (p : Nat → Int) (n : Nat) (v : Int) :
    (List.range n).map (Function.update p n v) = (List.range n).map p := by
  refine List.map_congr_left fun i hi => ?_
  rw [Function.update_of_ne (Nat.ne_of_lt (List.mem_range.mp hi))]

/-- The rest of the numbers, each behind a `;`. -/
theorem print_params {ds : List (List UInt8)} {bytes : List (UInt8 × UInt8)} (hn : n ≤ 7)
    (hds : ∀ d ∈ ds, Digits d) (hbytes : bytes.map Prod.fst = ds.flatMap (59 :: ·)) :
    ∃ p' n', printAll (inSequence s p n) bytes = .ret (inSequence s p' n') ∧ n' ≤ 7 ∧
      paramsOf p' n' = (List.range n).map p ++ keptFrom (p n) (7 - n) ds := by
  induction ds generalizing p n bytes with
  | nil =>
      rw [List.flatMap_nil, List.map_eq_nil_iff] at hbytes
      rw [hbytes]
      exact ⟨p, n, rfl, hn, by rw [paramsOf_eq, keptFrom]⟩
  | cons d ds ih =>
      rw [List.flatMap_cons, List.cons_append] at hbytes
      obtain ⟨b, bytes, rfl, hb, hrest⟩ := List.map_eq_cons_iff.mp hbytes
      obtain ⟨own, others, rfl, hown, hothers⟩ := List.map_eq_append_iff.mp hrest
      have hdigits : Digits (own.map Prod.fst) := hown ▸ hds d List.mem_cons_self
      have hmore (d' : List UInt8) (hmem : d' ∈ ds) : Digits d' := hds d' (List.mem_cons_of_mem d hmem)
      have hsplit (t : Statics) : printAll t (b :: (own ++ others)) =
          printChar t 59 b.2 >>= fun t => printAll t own >>= fun t => printAll t others := by
        show (printChar t b.1 b.2 >>= fun t => printAll t (own ++ others)) = _
        rw [hb]
        exact congrArg _ (funext fun t => printAll_append)
      rw [hsplit, printChar_semicolon hn, Exec.ret_bind]
      by_cases hroom : n < 7
      · -- there is room for one more
        obtain ⟨k, hk⟩ : ∃ k, 7 - n = k + 1 := ⟨6 - n, by omega⟩
        rw [if_pos hroom, print_digits hroom hdigits, Exec.ret_bind, Function.update_self,
          Function.update_idem, hown]
        obtain ⟨p', n', hprint, hn', hparams⟩ := ih (n := n + 1)
          (p := Function.update p (n + 1) (readDigits 0 d)) hroom hmore hothers
        refine ⟨p', n', hprint, hn', ?_⟩
        rw [hparams, map_range_update, List.range_succ, List.map_append, Function.update_self, hk,
          keptFrom, show 7 - (n + 1) = k by omega, List.append_assoc]
        rfl
      · -- the digits go on in the last one
        have hlast : 7 - n = 0 := by omega
        rw [if_neg hroom, print_digits hn hdigits, Exec.ret_bind, hown]
        obtain ⟨p', n', hprint, hn', hparams⟩ := ih (n := n)
          (p := Function.update p n (readDigits (p n) d)) hn hmore hothers
        refine ⟨p', n', hprint, hn', ?_⟩
        rw [hparams, map_range_update, Function.update_self, hlast, keptFrom]

/-- The numbers of a sequence. -/
theorem print_numbers {ds : List (List UInt8)} {bytes : List (UInt8 × UInt8)}
    (hds : ∀ d ∈ ds, Digits d) (hbytes : bytes.map Prod.fst = joined ds) :
    ∃ p' n', printAll (inSequence s (fun _ => 0) 0) bytes = .ret (inSequence s p' n') ∧ n' ≤ 7 ∧
      paramsOf p' n' = kept ds := by
  cases ds with
  | nil =>
      rw [joined, List.map_eq_nil_iff] at hbytes
      rw [hbytes]
      exact ⟨_, _, rfl, Nat.zero_le 7, rfl⟩
  | cons d ds =>
      obtain ⟨own, others, rfl, hown, hothers⟩ := List.map_eq_append_iff.mp hbytes
      obtain ⟨p', n', hprint, hn', hparams⟩ := print_params (s := s) (n := 0)
        (p := Function.update (fun _ => 0) 0 (readDigits 0 d)) (Nat.zero_le 7)
        (fun d' hmem => hds d' (List.mem_cons_of_mem d hmem)) hothers
      refine ⟨p', n', ?_, hn', ?_⟩
      · rw [printAll_append, print_digits (Nat.zero_le 7) (hown ▸ hds d List.mem_cons_self),
          Exec.ret_bind, hown]
        exact hprint
      · rw [hparams, Function.update_self]
        rfl

/-- A letter ends the sequence. -/
theorem printChar_letter {final : UInt8} (hletter : isLetter final = true) :
    printChar (inSequence s p n) final color =
      ansiCsi { inSequence s p n with ansiState := .normal } final := by
  have hge : 65 ≤ final := by
    simp only [isLetter, decide_eq_true_eq] at hletter
    rcases hletter with h | h
    · exact h.1
    · exact UInt8.le_trans (by decide) h.1
  have hne (x : UInt8) (hx : x < 65) : final ≠ x := by
    rintro rfl
    exact absurd hge (UInt8.not_le.mpr hx)
  have hbyte : printChar (inSequence s p n) final color = csiByte (inSequence s p n) final := rfl
  have hzero : paramAt (inSequence s p n) 0 = .ret (p 0) := rfl
  have hdigit : ¬(48 ≤ final ∧ final ≤ 57) := fun h =>
    absurd (UInt8.le_trans hge h.2) (by decide)
  rw [hbyte, csiByte, hzero, Exec.ret_bind, if_neg fun h => hne 63 (by decide) h.1, if_neg hdigit,
    if_neg (hne 59 (by decide))]
  exact if_pos hletter

/-- A sequence printed in state 0: what its letter does, with its parameters. -/
theorem print_sequence {ds : List (List UInt8)} {final : UInt8} {bytes : List (UInt8 × UInt8)}
    (hnormal : s.ansiState = .normal) (hds : ∀ d ∈ ds, Digits d) (hletter : isLetter final = true)
    (hbytes : bytes.map Prod.fst = sequence ds final) :
    ∃ (p : Nat → Int) (n : Nat), printAll s bytes = ansiCsi (withParams s p n false) final ∧ n ≤ 7 ∧
      paramsOf p n = kept ds := by
  obtain ⟨b₁, bytes, rfl, hb₁, hbytes⟩ := List.map_eq_cons_iff.mp hbytes
  obtain ⟨b₂, bytes, rfl, hb₂, hbytes⟩ := List.map_eq_cons_iff.mp hbytes
  obtain ⟨numbers, last, rfl, hnumbers, hlast⟩ := List.map_eq_append_iff.mp hbytes
  obtain ⟨b₃, rest, rfl, hb₃, hrest⟩ := List.map_eq_cons_iff.mp hlast
  rw [List.map_eq_nil_iff] at hrest
  obtain ⟨p, n, hprint, hn, hparams⟩ := print_numbers (s := s) hds hnumbers
  refine ⟨p, n, ?_, hn, hparams⟩
  have hescape : printChar s b₁.1 b₁.2 = .ret { s with ansiState := .escape } := by
    rw [hb₁]
    exact printChar_normal hnormal
  have hopen : printChar { s with ansiState := .escape } b₂.1 b₂.2 =
      .ret (inSequence s (fun _ => 0) 0) := by
    rw [hb₂]
    rfl
  have hstate : { inSequence s p n with ansiState := .normal } = withParams s p n false := by
    unfold inSequence withParams
    rw [← hnormal]
  show (printChar s b₁.1 b₁.2 >>= fun t => printChar t b₂.1 b₂.2 >>= fun t =>
    printAll t (numbers ++ b₃ :: rest)) = _
  rw [hescape, Exec.ret_bind, hopen, Exec.ret_bind, printAll_append, hprint, Exec.ret_bind, hrest]
  show (printChar _ b₃.1 b₃.2 >>= fun t => .ret t) = _
  rw [hb₃, printChar_letter hletter, hstate]
  cases ansiCsi (withParams s p n false) final <;> rfl

/-- The first parameter, where it is not negative. -/
theorem ansiParam_first {v : Int} {rest : List Int} (hparams : paramsOf p n = v :: rest)
    (hv : 0 ≤ v) : ansiParam (withParams s p n false) 0 0 = .ret v := by
  have hp : p 0 = v := by
    rw [paramsOf, List.range_succ_eq_map, List.map_cons] at hparams
    exact List.head_eq_of_cons_eq hparams
  have hread : paramAt (withParams s p n false) 0 = .ret v := congrArg Exec.ret hp
  have hinside : ¬((0 : Int) < 0 ∨ (0 : Int) > n) := by omega
  refine (if_neg hinside).trans ?_
  rw [hread, Exec.ret_bind]
  split
  · rw [show v = 0 by omega]
  · rfl

end Reading

/-! ## A sequence that is text -/

section Text

variable {s : Statics} {c color : UInt8}

/-- A byte that is shown as it is. -/
def IsText (c : UInt8) : Prop := c ≠ 27 ∧ c ≠ 7 ∧ c ≠ 9 ∧ c ≠ 8 ∧ c ≠ 13 ∧ c ≠ 10

/-- From `s` to `s'` the cursor has moved on by `k` columns, over the end of
the line where it comes. -/
structure Typed (k : Nat) (s s' : Statics) : Prop where
  state : s'.ansiState = s.ansiState
  pen : s'.pen = s.pen
  column : s'.charColumn = (s.charColumn + k) % 128

theorem advance_typed (hcol : 0 ≤ s.charColumn ∧ s.charColumn < 128) : Typed 1 s (advance s) := by
  have hnext : (nextLine s).pen = s.pen ∧ (nextLine s).charColumn = 0 := by
    unfold nextLine
    dsimp only
    split
    · exact ⟨rfl, rfl⟩
    · exact ⟨rfl, rfl⟩
  by_cases hend : s.charColumn + 1 ≥ screenWidth
  · have hadvance : advance s = nextLine s := if_pos hend
    refine ⟨advance_ansiState, by rw [hadvance, hnext.1], ?_⟩
    rw [hadvance, hnext.2]
    unfold screenWidth at hend
    omega
  · have hadvance : advance s = moveTo s s.charRaw (s.charColumn + 1) := if_neg hend
    refine ⟨advance_ansiState, by rw [hadvance]; rfl, ?_⟩
    rw [hadvance]
    unfold screenWidth at hend
    show s.charColumn + 1 = _
    omega

theorem printChar_text (h : InRange s) (hnormal : s.ansiState = .normal) (hc : IsText c) :
    (printChar s c color).Returns fun s' => InRange s' ∧ Typed 1 s s' := by
  obtain ⟨h27, h7, h9, h8, h13, h10⟩ := hc
  have hput : printChar s c color = putChar s c color := by
    rw [printChar_normal hnormal, normalByte, if_neg h27, if_neg h7, plainByte, if_neg h9, if_neg h8,
      if_neg h13, if_neg h10]
  have hadvance : (putChar s c color) =
      .ret (advance (withCell s s.charRaw s.charColumn c (finalColor s.pen color))) := by
    rw [putChar, putCell_ret h.row h.col, Exec.ret_bind]
  have hreturns : (printChar s c color).Returns _ := printChar_fine stable_true ⟨h, trivial⟩
  obtain ⟨s', hs', hfine⟩ := hreturns
  refine ⟨s', hs', hfine.1, ?_⟩
  rw [hput, hadvance] at hs'
  cases hs'
  have ht := advance_typed (s := withCell s s.charRaw s.charColumn c (finalColor s.pen color)) h.col
  exact ⟨ht.state, ht.pen, ht.column⟩

theorem print_text {bytes : List (UInt8 × UInt8)} (h : InRange s) (hnormal : s.ansiState = .normal)
    (hbytes : ∀ b ∈ bytes, IsText b.1) :
    (printAll s bytes).Returns fun s' => Typed bytes.length s s' := by
  induction bytes generalizing s with
  | nil =>
      refine ⟨s, rfl, rfl, rfl, ?_⟩
      have hcol := h.col
      rw [List.length_nil]
      omega
  | cons b bytes ih =>
      show (printChar s b.1 b.2 >>= fun t => printAll t bytes).Returns _
      refine .bind (printChar_text h hnormal (hbytes b List.mem_cons_self)) fun t ht => ?_
      refine (ih ht.1 (ht.2.state.trans hnormal) fun x hx =>
        hbytes x (List.mem_cons_of_mem b hx)).mono fun s' hs' => ?_
      refine ⟨hs'.state.trans ht.2.state, hs'.pen.trans ht.2.pen, ?_⟩
      rw [hs'.column, ht.2.column, List.length_cons]
      omega

/-- The ESC ends a sequence that is open, and does nothing else. -/
theorem printChar_aborted (h : InRange s) (hopen : s.ansiState ≠ .normal) :
    printChar s 27 color = .ret { s with ansiState := .normal } := by
  cases hstate : s.ansiState with
  | normal => exact absurd hstate hopen
  | escape =>
      rw [printChar_escape hstate]
      rfl
  | csi =>
      have hbyte : printChar s 27 color = csiByte s 27 := by
        unfold printChar printCharIn
        rw [hstate]
      have hfirst : (0 : Int) ≤ 0 ∧ (0 : Int) < 8 := by decide
      obtain ⟨v, hv, _⟩ := paramAt_ret h hfirst
      rw [hbyte, csiByte, hv]
      rfl

theorem isText_of_ge {c : UInt8} (hc : 48 ≤ c) : IsText c := by
  have hne (x : UInt8) (hx : x < 48) : c ≠ x := by
    rintro rfl
    exact absurd hc (UInt8.not_le.mpr hx)
  exact ⟨hne 27 (by decide), hne 7 (by decide), hne 9 (by decide), hne 8 (by decide),
    hne 13 (by decide), hne 10 (by decide)⟩

theorem isText_joined {ds : List (List UInt8)} (hds : ∀ d ∈ ds, Digits d) :
    ∀ x ∈ joined ds, IsText x := by
  intro x hx
  cases ds with
  | nil => cases hx
  | cons d ds =>
      rcases List.mem_append.mp hx with hown | hothers
      · exact isText_of_ge (hds d List.mem_cons_self x hown).1
      · obtain ⟨d', hmem, hx⟩ := List.mem_flatMap.mp hothers
        rcases List.mem_cons.mp hx with rfl | hx
        · exact isText_of_ge (by decide)
        · exact isText_of_ge (hds d' (List.mem_cons_of_mem d hmem) x hx).1

/-- A sequence printed while another is open: its ESC ends that, and the rest
is text. -/
theorem print_aborted {ds : List (List UInt8)} {final : UInt8} {bytes : List (UInt8 × UInt8)}
    (h : InRange s) (hopen : s.ansiState ≠ .normal) (hds : ∀ d ∈ ds, Digits d)
    (hletter : isLetter final = true) (hbytes : bytes.map Prod.fst = sequence ds final) :
    (printAll s bytes).Returns fun s' =>
      s'.ansiState = .normal ∧ s'.pen = s.pen ∧
        s'.charColumn = (s.charColumn + ((joined ds).length + 2)) % 128 := by
  obtain ⟨b₁, bytes, rfl, hb₁, hrest⟩ := List.map_eq_cons_iff.mp hbytes
  have hbytes : bytes.map Prod.fst = 91 :: joined ds ++ [final] := hrest
  have htext : ∀ b ∈ bytes, IsText b.1 := by
    intro b hb
    have hmem : b.1 ∈ 91 :: joined ds ++ [final] := hbytes ▸ List.mem_map_of_mem (f := Prod.fst) hb
    rcases List.mem_cons.mp hmem with h91 | hmem
    · rw [h91]
      exact isText_of_ge (by decide)
    · rcases List.mem_append.mp hmem with hnumber | hfinal
      · exact isText_joined hds _ hnumber
      · rw [List.mem_singleton.mp hfinal]
        simp only [isLetter, decide_eq_true_eq] at hletter
        rcases hletter with hup | hlow
        · exact isText_of_ge (UInt8.le_trans (by decide) hup.1)
        · exact isText_of_ge (UInt8.le_trans (by decide) hlow.1)
  have hlength : bytes.length = (joined ds).length + 2 := by
    have hlen := congrArg List.length hbytes
    rw [List.length_map, List.length_append, List.length_cons, List.length_singleton] at hlen
    exact hlen
  have hesc : printAll s (b₁ :: bytes) = printAll { s with ansiState := .normal } bytes := by
    show (printChar s b₁.1 b₁.2 >>= fun t => printAll t bytes) = _
    rw [hb₁, printChar_aborted h hopen, Exec.ret_bind]
  have hrange : InRange { s with ansiState := .normal } := { h with }
  rw [hesc]
  refine (print_text hrange rfl htext).mono fun s' hs' => ⟨hs'.state, hs'.pen, ?_⟩
  rw [hs'.column, hlength]
  rfl

end Text

end LiteBSD.Tty
