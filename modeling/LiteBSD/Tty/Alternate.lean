/-
# `LiteBSD.Tty.Alternate` — the alternate screen that is never switched to

`ESC [ ? 1 0 4 9 h` is to save the screen and `ESC [ ? 1 0 4 9 l` is to bring
it back.  The parser cuts every parameter down to 999 while it reads the
digits, so `ansi_csi` compares 999 with 1049, and neither sequence does more
than set the parameters (`print_mode`).

What the parameters are does not matter outside of a sequence, as the next
one sets them to zero: states that differ in them only (`Alike`) stay so,
whatever is printed.  Output between the two sequences is thus output on the
main screen, and it is there afterwards.
-/
import LiteBSD.Tty.Range

namespace LiteBSD.Tty

/-- `ESC [ ? 1 0 4 9` and the last byte, all in one colour. -/
def mode1049 (final color : UInt8) : List (UInt8 × UInt8) :=
  [27, 91, 63, 49, 48, 52, 57, final].map fun c => (c, color)

/-- The cells and the cursor are as before. -/
def SameScreen (s s' : Statics) : Prop :=
  (∀ row < 48, ∀ col < 128, s'.textGrid row col = s.textGrid row col ∧ s'.colorGrid row col = s.colorGrid row col) ∧
    s'.charRaw = s.charRaw ∧ s'.charColumn = s.charColumn

/-- Other parameters. -/
def withParams (s : Statics) (params : Nat → Int) (nparams : Int) (priv : Bool) : Statics :=
  { s with ansiParams := params, ansiNparams := nparams, ansiPrivate := priv }

/-- The states are the same, but for parameters that are not in use. -/
def Alike (s t : Statics) : Prop :=
  s = t ∨ s.ansiState ≠ .csi ∧ ∃ params nparams priv, t = withParams s params nparams priv

section

variable {s : Statics} {params : Nat → Int} {nparams : Int} {priv : Bool} {c color : UInt8}

/-! ## Printing does not look at the parameters -/

theorem nextLine_withParams :
    nextLine (withParams s params nparams priv) = withParams (nextLine s) params nparams priv := by
  by_cases hend : s.charRaw + 1 ≥ screenHeight
  · have hscroll : nextLine s = scrollScreen (moveTo s (s.charRaw + 1) 0) := if_pos hend
    rw [hscroll]
    exact if_pos hend
  · have hmove : nextLine s = moveTo s (s.charRaw + 1) 0 := if_neg hend
    rw [hmove]
    exact if_neg hend

theorem advance_withParams :
    advance (withParams s params nparams priv) = withParams (advance s) params nparams priv := by
  by_cases hend : s.charColumn + 1 ≥ screenWidth
  · have hnext : advance s = nextLine s := if_pos hend
    rw [hnext, ← nextLine_withParams]
    exact if_pos hend
  · have hmove : advance s = moveTo s s.charRaw (s.charColumn + 1) := if_neg hend
    rw [hmove]
    exact if_neg hend

theorem putCell_withParams {row col : Int} :
    putCell (withParams s params nparams priv) row col c color =
      putCell s row col c color >>= fun s' => .ret (withParams s' params nparams priv) := by
  unfold putCell
  by_cases hgrid : onGrid row col = true
  · rw [if_pos hgrid, if_pos hgrid]
    rfl
  · rw [if_neg hgrid, if_neg hgrid]
    rfl

theorem putChar_withParams :
    putChar (withParams s params nparams priv) c color =
      putChar s c color >>= fun s' => .ret (withParams s' params nparams priv) := by
  unfold putChar
  have hput := @putCell_withParams s params nparams priv c (finalColor s.pen color) s.charRaw s.charColumn
  refine (congrArg (· >>= fun s => Exec.ret (advance s)) hput).trans ?_
  rw [Exec.bind_assoc, Exec.bind_assoc]
  refine congrArg _ (funext fun s' => ?_)
  rw [Exec.ret_bind, Exec.ret_bind, advance_withParams]

/-! ## Printing does not look at the state of the parser either -/

theorem nextLine_ansiState : (nextLine s).ansiState = s.ansiState := by
  unfold nextLine
  dsimp only
  split
  · rfl
  · rfl

theorem advance_ansiState : (advance s).ansiState = s.ansiState := by
  unfold advance
  dsimp only
  split
  · exact nextLine_ansiState
  · rfl

theorem putChar_ansiState : (putChar s c color).Ensures fun s' => s'.ansiState = s.ansiState := by
  have hput : (putCell s s.charRaw s.charColumn c (finalColor s.pen color)).Ensures fun s' =>
      s'.ansiState = s.ansiState := by
    unfold putCell
    split
    · exact .ret rfl
    · exact .undefined
  exact .bind hput fun s' hs' => .ret (advance_ansiState.trans hs')

/-- The calls of `print_char` in a tab only ever print a character. -/
theorem tabLoop_eq {depth fuel : Nat} {stop : Int} (hn : s.ansiState = .normal) :
    tabLoop (fun s => printCharIn (depth + 1) s 32 color) stop fuel s =
      tabLoop (fun s => putChar s 32 color) stop fuel s := by
  induction fuel generalizing s with
  | zero => rfl
  | succ fuel ih =>
      unfold tabLoop
      rw [printCharIn_space hn]
      refine if_congr Iff.rfl ?_ rfl
      cases hput : putChar s 32 color with
      | ret s' => exact ih ((putChar_ansiState s' hput).trans hn)
      | panic => rfl
      | hang => rfl
      | undefined => rfl

theorem tabLoop_withParams {fuel : Nat} {stop : Int} :
    tabLoop (fun s => putChar s 32 color) stop fuel (withParams s params nparams priv) =
      tabLoop (fun s => putChar s 32 color) stop fuel s >>= fun s' => .ret (withParams s' params nparams priv) := by
  induction fuel generalizing s with
  | zero => rfl
  | succ fuel ih =>
      unfold tabLoop
      by_cases hstop : s.charColumn < stop
      · rw [if_pos hstop]
        refine (if_pos hstop).trans ?_
        rw [putChar_withParams, Exec.bind_assoc, Exec.bind_assoc]
        exact congrArg _ (funext fun s' => ih)
      · rw [if_neg hstop]
        exact if_neg hstop

theorem tabLoop_ansiState {fuel : Nat} {stop : Int} :
    (tabLoop (fun s => putChar s 32 color) stop fuel s).Ensures fun s' => s'.ansiState = s.ansiState := by
  induction fuel generalizing s with
  | zero =>
      intro s' hs'
      have hhang : Exec.hang = Exec.ret s' := hs'
      cases hhang
  | succ fuel ih =>
      unfold tabLoop
      split
      · refine .bind putChar_ansiState fun s' hs' => ?_
        exact ih.mono fun _ h => h.trans hs'
      · exact .ret rfl

theorem backspace_withParams :
    backspace (withParams s params nparams priv) = withParams (backspace s) params nparams priv := by
  by_cases hcol : s.charColumn > 0
  · have hback : backspace s = moveTo s s.charRaw (s.charColumn - 1) := if_pos hcol
    rw [hback]
    exact if_pos hcol
  · by_cases hrow : s.charRaw > 0
    · have hback : backspace s = moveTo s (s.charRaw - 1) (screenWidth - 1) := (if_neg hcol).trans (if_pos hrow)
      rw [hback]
      exact (if_neg hcol).trans (if_pos hrow)
    · have hback : backspace s = s := (if_neg hcol).trans (if_neg hrow)
      rw [hback]
      exact (if_neg hcol).trans (if_neg hrow)

theorem plainByte_withParams :
    plainByte (fun s => putChar s 32 color) (withParams s params nparams priv) c color =
      plainByte (fun s => putChar s 32 color) s c color >>= fun s' => .ret (withParams s' params nparams priv) := by
  unfold plainByte
  by_cases htab : c = 9
  · rw [if_pos htab, if_pos htab]
    exact tabLoop_withParams
  · rw [if_neg htab, if_neg htab]
    split
    · exact congrArg Exec.ret backspace_withParams
    split
    · rfl
    split
    · exact congrArg Exec.ret nextLine_withParams
    · exact putChar_withParams

theorem plainByte_ansiState :
    (plainByte (fun s => putChar s 32 color) s c color).Ensures fun s' => s'.ansiState = s.ansiState := by
  unfold plainByte
  split
  · exact tabLoop_ansiState
  split
  · refine .ret ?_
    unfold backspace
    split
    · rfl
    split
    · rfl
    · rfl
  split
  · exact .ret rfl
  split
  · exact .ret nextLine_ansiState
  · exact putChar_ansiState

/-- A byte in state 0. -/
def normalByte (s : Statics) (c color : UInt8) : Exec Statics :=
  if c = 27 then .ret { s with ansiState := .escape }
  else if c = 7 then .ret s
  else plainByte (fun s => putChar s 32 color) s c color

theorem printChar_normal (hn : s.ansiState = .normal) : printChar s c color = normalByte s c color := by
  have hplain : plainByte (fun s => printCharIn 1 s 32 color) s c color =
      plainByte (fun s => putChar s 32 color) s c color :=
    if_congr Iff.rfl (tabLoop_eq hn) rfl
  unfold printChar printCharIn normalByte
  rw [hn, ← hplain]

theorem printChar_escape (hn : s.ansiState = .escape) :
    printChar s c color =
      if c = 91 then
        .ret { s with ansiState := .csi, ansiNparams := 0, ansiPrivate := false, ansiParams := fun _ => 0 }
      else .ret { s with ansiState := .normal } := by
  unfold printChar printCharIn
  rw [hn]

theorem normalByte_withParams :
    normalByte (withParams s params nparams priv) c color =
      normalByte s c color >>= fun s' => .ret (withParams s' params nparams priv) := by
  unfold normalByte
  split
  · rfl
  split
  · rfl
  · exact plainByte_withParams

/-- No sequence is open behind the byte. -/
theorem normalByte_ansiState (hn : s.ansiState = .normal) :
    (normalByte s c color).Ensures fun s' => s'.ansiState ≠ .csi := by
  unfold normalByte
  split
  · exact .ret nofun
  split
  · exact .ret (hn ▸ nofun)
  · exact plainByte_ansiState.mono fun s' hs' => by rw [hs', hn]; exact nofun

/-! ## Runs from states that are alike -/

theorem Alike.printChar {s t s' : Statics} (h : Alike s t) (hs : printChar s c color = .ret s') :
    ∃ t', printChar t c color = .ret t' ∧ Alike s' t' := by
  obtain rfl | ⟨hne, params, nparams, priv, rfl⟩ := h
  · exact ⟨s', hs, .inl rfl⟩
  have hstate' : ∀ state, s.ansiState = state → (withParams s params nparams priv).ansiState = state := fun _ h => h
  cases hstate : s.ansiState with
  | csi => exact absurd hstate hne
  | escape =>
      rw [printChar_escape hstate] at hs
      rw [printChar_escape (hstate' _ hstate)]
      by_cases hc : c = 91
      · -- a sequence begins, and the parameters are set to zero
        rw [if_pos hc] at hs ⊢
        cases hs
        exact ⟨_, rfl, .inl rfl⟩
      · rw [if_neg hc] at hs ⊢
        cases hs
        exact ⟨_, rfl, .inr ⟨nofun, params, nparams, priv, rfl⟩⟩
  | normal =>
      rw [printChar_normal hstate] at hs
      rw [printChar_normal (hstate' _ hstate), normalByte_withParams, hs]
      exact ⟨_, rfl, .inr ⟨normalByte_ansiState hstate s' hs, params, nparams, priv, rfl⟩⟩

theorem Alike.printAll {s t s' : Statics} {bytes : List (UInt8 × UInt8)} (h : Alike s t)
    (hs : printAll s bytes = .ret s') : ∃ t', printAll t bytes = .ret t' ∧ Alike s' t' := by
  induction bytes generalizing s t with
  | nil =>
      cases hs
      exact ⟨t, rfl, h⟩
  | cons b rest ih =>
      obtain ⟨s₁, hs₁, hrest⟩ := Exec.bind_eq_ret.mp hs
      obtain ⟨t₁, ht₁, h₁⟩ := h.printChar hs₁
      obtain ⟨t', ht', h'⟩ := ih h₁ hrest
      exact ⟨t', Exec.bind_eq_ret.mpr ⟨t₁, ht₁, ht'⟩, h'⟩

theorem Alike.ansiState {s t : Statics} (h : Alike s t) : t.ansiState = s.ansiState := by
  obtain rfl | ⟨_, params, nparams, priv, rfl⟩ := h
  · rfl
  · rfl

theorem Alike.sameScreen {s t s₀ : Statics} (h : Alike s t) : SameScreen s₀ t ↔ SameScreen s₀ s := by
  obtain rfl | ⟨_, params, nparams, priv, rfl⟩ := h
  · exact Iff.rfl
  · exact Iff.rfl

theorem printAll_append {xs ys : List (UInt8 × UInt8)} :
    printAll s (xs ++ ys) = printAll s xs >>= fun s' => printAll s' ys := by
  induction xs generalizing s with
  | nil => rfl
  | cons b rest ih =>
      refine Eq.trans ?_ (Exec.bind_assoc (printChar s b.1 b.2) _ _).symm
      exact congrArg _ (funext fun s₁ => ih)

/-! ## The sequences -/

/-- In a private sequence, with the first parameter read so far. -/
def inPrivate (s : Statics) (v : Int) : Statics :=
  { s with ansiState := .csi, ansiParams := Function.update (fun _ => 0) 0 v, ansiNparams := 0, ansiPrivate := true }

theorem inPrivate_param {v : Int} : paramAt (inPrivate s v) 0 = .ret v := rfl

/-- A digit, and the cut to 999. -/
theorem printChar_digit {v : Int} (hc : 48 ≤ c ∧ c ≤ 57) :
    printChar (inPrivate s v) c color = .ret (inPrivate s (min (v * 10 + (c.toNat - 48)) 999)) := by
  have hquestion : c ≠ 63 := fun h => absurd (h ▸ hc.2) (by decide)
  have hbyte : printChar (inPrivate s v) c color = csiByte (inPrivate s v) c := rfl
  have hnparams : (inPrivate s v).ansiNparams = 0 := rfl
  have hset : ∀ v', setParam (inPrivate s v) 0 v' = .ret (inPrivate s v') := by
    intro v'
    refine (if_pos (by decide)).trans (congrArg Exec.ret ?_)
    unfold inPrivate
    dsimp only
    rw [Int.toNat_zero, Function.update_idem]
  rw [hbyte]
  unfold csiByte
  rw [inPrivate_param, Exec.ret_bind, if_neg fun h => hquestion h.1, if_pos hc, hnparams, inPrivate_param,
    Exec.ret_bind, hset]

/-- The last byte: 999 is not 1049. -/
theorem printChar_mode {v : Int} (hfinal : c = 104 ∨ c = 108) (hv : v ≤ 999) :
    printChar (inPrivate s v) c color = .ret { inPrivate s v with ansiState := .normal } := by
  have hparam : ansiParam { inPrivate s v with ansiState := .normal } 0 0 = .ret (if v ≤ 0 then 0 else v) := rfl
  have hne : ¬(true = true ∧ (if v ≤ 0 then 0 else v) = 1049) := by split <;> omega
  obtain rfl | rfl := hfinal
  · have hhigh : printChar (inPrivate s v) 104 color = ansiCsi { inPrivate s v with ansiState := .normal } 104 := rfl
    rw [hhigh]
    unfold ansiCsi
    rw [hparam, Exec.ret_bind]
    exact if_neg hne
  · have hlow : printChar (inPrivate s v) 108 color = ansiCsi { inPrivate s v with ansiState := .normal } 108 := rfl
    rw [hlow]
    unfold ansiCsi
    rw [hparam, Exec.ret_bind]
    exact if_neg hne

/-- Neither sequence does anything but set parameters. -/
theorem print_mode {final : UInt8} (hn : s.ansiState = .normal) (hfinal : final = 104 ∨ final = 108) :
    ∃ params nparams priv, printAll s (mode1049 final color) = .ret (withParams s params nparams priv) := by
  have hescape : printChar s 27 color = .ret { s with ansiState := .escape } := printChar_normal hn
  have hopen : printChar { s with ansiState := .escape } 91 color =
      .ret { s with ansiState := .csi, ansiNparams := 0, ansiPrivate := false, ansiParams := fun _ => 0 } := rfl
  have hquestion : printChar
      { s with ansiState := .csi, ansiNparams := 0, ansiPrivate := false, ansiParams := fun _ => 0 } 63 color =
      .ret (inPrivate s 0) := by
    unfold inPrivate
    rw [Function.update_eq_self (f := fun _ => (0 : Int))]
    rfl
  have hdone : { inPrivate s 999 with ansiState := .normal } =
      withParams s (Function.update (fun _ => 0) 0 999) 0 true := by
    unfold withParams
    rw [← hn]
    rfl
  refine ⟨_, _, _, Eq.trans ?_ (congrArg Exec.ret hdone)⟩
  unfold mode1049 printAll
  simp only [List.map_cons, List.map_nil, List.foldlM_cons, List.foldlM_nil]
  rw [hescape, Exec.ret_bind, hopen, Exec.ret_bind, hquestion, Exec.ret_bind]
  -- the parameter is 1, 10, 104, and then 999
  rw [printChar_digit (by decide), Exec.ret_bind, printChar_digit (by decide), Exec.ret_bind,
    printChar_digit (by decide), Exec.ret_bind, printChar_digit (by decide), Exec.ret_bind,
    printChar_mode hfinal (by decide)]
  rfl

/-- The two sequences around other output: it is as if they were not there. -/
theorem print_bracketed {w : List (UInt8 × UInt8)} {s₁ : Statics} (hn : s.ansiState = .normal)
    (hw : printAll s w = .ret s₁) (hend : s₁.ansiState = .normal) :
    ∃ t, printAll s (mode1049 104 color ++ w ++ mode1049 108 color) = .ret t ∧
      (SameScreen s t ↔ SameScreen s s₁) := by
  obtain ⟨params, nparams, priv, hon⟩ := @print_mode s color 104 hn (.inl rfl)
  have halike : Alike s (withParams s params nparams priv) := .inr ⟨hn ▸ nofun, params, nparams, priv, rfl⟩
  obtain ⟨t₁, ht₁, h₁⟩ := halike.printAll hw
  obtain ⟨params', nparams', priv', hoff⟩ := @print_mode t₁ color 108 (h₁.ansiState.trans hend) (.inr rfl)
  refine ⟨withParams t₁ params' nparams' priv', ?_, h₁.sameScreen⟩
  rw [printAll_append, printAll_append, hon, Exec.ret_bind, ht₁, Exec.ret_bind, hoff]

end

/-- The screen is as it was before the two sequences exactly if what is
between them leaves it as it is, printed by itself. -/
theorem bracketed_iff {s : Statics} {w : List (UInt8 × UInt8)} {color : UInt8}
    (hn : s.ansiState = .normal) (hw : (printAll s w).Returns fun s₁ => s₁.ansiState = .normal) :
    (printAll s (mode1049 104 color ++ w ++ mode1049 108 color)).Returns (SameScreen s) ↔
      (printAll s w).Returns (SameScreen s) := by
  obtain ⟨s₁, hs₁, hend⟩ := hw
  obtain ⟨t, ht, hiff⟩ := @print_bracketed s color w s₁ hn hs₁ hend
  constructor
  · rintro ⟨t', ht', hsame⟩
    cases ht.symm.trans ht'
    exact ⟨s₁, hs₁, hiff.mp hsame⟩
  · rintro ⟨s', hs', hsame⟩
    cases hs₁.symm.trans hs'
    exact ⟨t, ht, hiff.mpr hsame⟩

end LiteBSD.Tty
