/-
# `LiteBSD.Tty.Range` — the cursor stays on the screen

Whatever bytes are printed, the cursor and the two saved positions are
positions of cells, the parameters of an escape sequence are at most 999 and
at most eight, and no array is left (`printAll_fine`).

  * `InRange` says so of a state;
  * `Stable I` says that drawing keeps `I`, for a condition `I` on what is on
    the screen; the lemmas carry such a condition along, so that the run is
    gone through once for all of them.
-/
import LiteBSD.Tty.Model

namespace LiteBSD.Tty

structure InRange (s : Statics) : Prop where
  row : 0 ≤ s.charRaw ∧ s.charRaw < 48
  col : 0 ≤ s.charColumn ∧ s.charColumn < 128
  altRow : 0 ≤ s.altSavedRow ∧ s.altSavedRow < 48
  altCol : 0 ≤ s.altSavedCol ∧ s.altSavedCol < 128
  savedRow : 0 ≤ s.ansiSavedRow ∧ s.ansiSavedRow < 48
  savedCol : 0 ≤ s.ansiSavedCol ∧ s.ansiSavedCol < 128
  nparams : 0 ≤ s.ansiNparams ∧ s.ansiNparams ≤ 7
  params : ∀ i < 8, 0 ≤ s.ansiParams i ∧ s.ansiParams i ≤ 999

/-- A condition on the cells and the display that drawing keeps. -/
structure Stable (I : Statics → Prop) : Prop where
  screen : ∀ {s s'}, s'.textGrid = s.textGrid → s'.colorGrid = s.colorGrid → s'.display = s.display → I s → I s'
  put : ∀ {s c attr} {row col : Int}, 0 ≤ row ∧ row < 48 → 0 ≤ col ∧ col < 128 → I s → I (withCell s row col c attr)
  scroll : ∀ {s}, I s → I (scrollScreen s)
  clear : ∀ {s}, I s → I (clear s)

/-- In range, and `I` holds. -/
def Fine (I : Statics → Prop) (s : Statics) : Prop := InRange s ∧ I s

/-- The condition that asks for nothing. -/
theorem stable_true : Stable fun _ => True where
  screen _ _ _ _ := trivial
  put _ _ _ := trivial
  scroll _ := trivial
  clear _ := trivial

theorem zero_row : (0 : Int) ≤ 0 ∧ (0 : Int) < 48 := by decide
theorem zero_col : (0 : Int) ≤ 0 ∧ (0 : Int) < 128 := by decide
theorem zero_param : (0 : Int) ≤ 0 ∧ (0 : Int) ≤ 999 := by decide

/-! ## Cells -/

theorem onGrid_of {row col : Int} (hrow : 0 ≤ row ∧ row < 48) (hcol : 0 ≤ col ∧ col < 128) : onGrid row col = true := by
  unfold onGrid screenHeight screenWidth
  exact decide_eq_true ⟨hrow, hcol⟩

theorem mem_cellsOf {row0 col0 row1 col1 : Int} {p : Int × Int} (h : p ∈ cellsOf row0 col0 row1 col1) :
    (row0 ≤ p.1 ∧ p.1 < row1) ∧ col0 ≤ p.2 ∧ p.2 < col1 := by
  obtain ⟨i, hi, h⟩ := List.mem_flatMap.mp h
  obtain ⟨j, hj, rfl⟩ := List.mem_map.mp h
  rw [List.mem_range] at hi hj
  constructor <;> dsimp only <;> omega

section Operations

variable {I : Statics → Prop} {s : Statics} {c color attr : UInt8}

theorem InRange.withCell {row col : Int} (h : InRange s) : InRange (withCell s row col c attr) := { h with }

theorem InRange.scrollScreen (h : InRange s) : InRange (scrollScreen s) :=
  { h with
    row := (by decide : 0 ≤ screenHeight - 1 ∧ screenHeight - 1 < 48)
    col := zero_col }

theorem InRange.clear (h : InRange s) : InRange (clear s) :=
  { h with row := zero_row, col := zero_col }

/-- A store into a cell of the screen. -/
theorem putCell_ret {row col : Int} (hrow : 0 ≤ row ∧ row < 48) (hcol : 0 ≤ col ∧ col < 128) :
    putCell s row col c attr = .ret (withCell s row col c attr) :=
  if_pos (onGrid_of hrow hcol)

/-- The registers change, the screen does not. -/
theorem Fine.registers {s' : Statics} (hI : Stable I) (h : Fine I s) (hs' : InRange s')
    (htext : s'.textGrid = s.textGrid) (hcolor : s'.colorGrid = s.colorGrid) (hdisplay : s'.display = s.display) :
    Fine I s' :=
  ⟨hs', hI.screen htext hcolor hdisplay h.2⟩

theorem Fine.moveTo (hI : Stable I) (h : Fine I s) {row col : Int} (hrow : 0 ≤ row ∧ row < 48)
    (hcol : 0 ≤ col ∧ col < 128) : Fine I (moveTo s row col) :=
  h.registers hI { h.1 with row := hrow, col := hcol } rfl rfl rfl

theorem clear_fine (hI : Stable I) (h : Fine I s) : Fine I (clear s) := ⟨h.1.clear, hI.clear h.2⟩

/-- Stores into cells of the screen, one after the other. -/
theorem putCells_fine (hI : Stable I) {cells : List (Int × Int)} {text color : Statics → Int × Int → UInt8}
    (hcells : ∀ p ∈ cells, (0 ≤ p.1 ∧ p.1 < 48) ∧ 0 ≤ p.2 ∧ p.2 < 128) (h : Fine I s) :
    (cells.foldlM (fun s p => putCell s p.1 p.2 (text s p) (color s p)) s).Returns (Fine I) := by
  refine .foldlM (fun p hp s hs => ?_) h
  obtain ⟨hrow, hcol⟩ := hcells p hp
  rw [putCell_ret hrow hcol]
  exact .ret ⟨hs.1.withCell, hI.put hrow hcol hs.2⟩

theorem vgaFill_fine (hI : Stable I) {row0 col0 row1 col1 : Int} (h : Fine I s) :
    (vgaFill s row0 col0 row1 col1 attr).Returns (Fine I) := by
  refine putCells_fine hI (fun p hp => ?_) h
  have hmem := mem_cellsOf hp
  unfold screenHeight screenWidth at hmem
  omega

theorem altEnter_fine (hI : Stable I) (h : Fine I s) : Fine I (altEnter s) := by
  unfold altEnter
  split
  · exact h
  · exact clear_fine hI (h.registers hI { h.1 with altRow := h.1.row, altCol := h.1.col } rfl rfl rfl)

theorem altExit_fine (hI : Stable I) (h : Fine I s) : (altExit s).Returns (Fine I) := by
  unfold altExit
  split
  · exact .ret h
  · refine .bind (putCells_fine hI (fun p hp => ?_) (clear_fine hI h)) fun s' hs' => ?_
    · have hmem := mem_cellsOf hp
      unfold screenHeight screenWidth at hmem
      exact hmem
    · exact .ret (hs'.registers hI { hs'.1 with row := hs'.1.altRow, col := hs'.1.altCol } rfl rfl rfl)

/-! ## Escape sequences -/

theorem paramAt_ret (h : InRange s) {idx : Int} (hidx : 0 ≤ idx ∧ idx < 8) :
    (paramAt s idx).Returns fun v => 0 ≤ v ∧ v ≤ 999 := by
  unfold paramAt
  rw [if_pos hidx]
  exact .ret (h.params _ (by omega))

theorem setParam_fine (hI : Stable I) (h : Fine I s) {idx v : Int} (hidx : 0 ≤ idx ∧ idx < 8)
    (hv : 0 ≤ v ∧ v ≤ 999) : (setParam s idx v).Returns (Fine I) := by
  unfold setParam
  rw [if_pos hidx]
  refine .ret (h.registers hI { h.1 with params := fun i hi => ?_ } rfl rfl rfl)
  dsimp only
  by_cases heq : i = idx.toNat
  · rw [heq, Function.update_self]
    exact hv
  · rw [Function.update_of_ne heq]
    exact h.1.params i hi

/-- A parameter that is asked for is the default or in 0..999. -/
theorem ansiParam_ret (h : InRange s) (idx dflt : Int) :
    (ansiParam s idx dflt).Returns fun v => v = dflt ∨ 0 ≤ v ∧ v ≤ 999 := by
  have hn := h.nparams
  unfold ansiParam
  split
  · exact .ret (.inl rfl)
  · refine .bind (paramAt_ret h (by omega)) fun v hv => .ret ?_
    split
    · exact .inl rfl
    · exact .inr hv

theorem setAttrs_fine (hI : Stable I) (h : Fine I s) : (setAttrs s).Returns (Fine I) := by
  have hn := h.1.nparams
  refine .foldlM (fun i hi s hs => ?_) h
  rw [List.mem_range] at hi
  exact .bind (paramAt_ret hs.1 (by omega)) fun p _ => .ret (hs.registers hI { hs.1 with } rfl rfl rfl)

theorem ansiFinal_fine (hI : Stable I) (h : Fine I s) {final : UInt8} {p0 : Int} (hp0 : 0 ≤ p0) :
    (ansiFinal s final p0).Returns (Fine I) := by
  have hrow := h.1.row
  have hcol := h.1.col
  have hn : 1 ≤ orOne p0 := by unfold orOne; split <;> omega
  unfold ansiFinal screenHeight screenWidth
  refine .ite (fun _ => ?goto) fun _ => .ite (fun _ => ?up) fun _ => .ite (fun _ => ?down) fun _ =>
    .ite (fun _ => ?right) fun _ => .ite (fun _ => ?left) fun _ => .ite (fun _ => ?screen) fun _ =>
    .ite (fun _ => ?line) fun _ => .ite (fun _ => ?colours) fun _ => .ite (fun _ => ?save) fun _ =>
    .ite (fun _ => ?restore) fun _ => .ite (fun _ => ?high) fun _ => .ite (fun _ => ?low) fun _ => .ret h
  case goto =>
    refine .bind (ansiParam_ret h.1 0 1) fun row _ => .bind (ansiParam_ret h.1 1 1) fun col _ => ?_
    exact .ret (h.moveTo hI (by omega) (by omega))
  case up => exact .ret (h.moveTo hI (by omega) hcol)
  case down => exact .ret (h.moveTo hI (by omega) hcol)
  case right => exact .ret (h.moveTo hI hrow (by omega))
  case left => exact .ret (h.moveTo hI hrow (by omega))
  case screen => exact .ite (fun _ => vgaFill_fine hI h) fun _ => vgaFill_fine hI h
  case line => exact .ite (fun _ => vgaFill_fine hI h) fun _ => vgaFill_fine hI h
  case colours => exact .ite (fun _ => .ret h) fun _ => setAttrs_fine hI h
  case save =>
    exact .ite (fun _ => .ret h) fun _ =>
      .ret (h.registers hI { h.1 with savedRow := hrow, savedCol := hcol } rfl rfl rfl)
  case restore => exact .ite (fun _ => .ret h) fun _ => .ret (h.moveTo hI h.1.savedRow h.1.savedCol)
  case high => exact .ite (fun _ => .ret (altEnter_fine hI h)) fun _ => .ret h
  case low => exact .ite (fun _ => altExit_fine hI h) fun _ => .ret h

theorem csiByte_fine (hI : Stable I) (h : Fine I s) : (csiByte s c).Returns (Fine I) := by
  have hn := h.1.nparams
  unfold csiByte
  refine .bind (paramAt_ret h.1 (by decide)) fun p _ => ?_
  split_ifs with hquestion hdigit hsemi hroom hletter
  · exact .ret (h.registers hI { h.1 with } rfl rfl rfl)
  · refine .bind (paramAt_ret h.1 (by omega)) fun v hv => ?_
    have hc : 48 ≤ c.toNat := UInt8.le_iff_toNat_le.mp hdigit.1
    exact setParam_fine hI h (by omega) (by omega)
  · refine setParam_fine hI ?_ (by omega) (by omega)
    exact h.registers hI { h.1 with nparams := by dsimp only; omega } rfl rfl rfl
  · exact .ret h
  · have hs : Fine I { s with ansiState := .normal } := h.registers hI { h.1 with } rfl rfl rfl
    refine .bind (ansiParam_ret hs.1 0 0) fun p0 hp0 => ansiFinal_fine hI hs (by omega)
  · exact .ret (h.registers hI { h.1 with } rfl rfl rfl)

/-! ## Characters -/

theorem nextLine_fine (hI : Stable I) (h : Fine I s) : Fine I (nextLine s) := by
  have hrow := h.1.row
  unfold nextLine screenHeight
  dsimp only
  split_ifs with hend
  · -- scrolling sets the cursor itself
    have hscroll : scrollScreen (moveTo s (s.charRaw + 1) 0) = scrollScreen s := rfl
    rw [hscroll]
    exact ⟨h.1.scrollScreen, hI.scroll h.2⟩
  · exact h.moveTo hI ⟨by omega, Int.not_le.mp hend⟩ (by decide)

/-- The cursor moves by a column, up to the last one. -/
theorem advance_fine (hI : Stable I) (h : Fine I s) :
    Fine I (advance s) ∧ (s.charColumn < 127 → advance s = moveTo s s.charRaw (s.charColumn + 1)) := by
  have hcol := h.1.col
  unfold advance screenWidth
  dsimp only
  split_ifs with hend
  · -- the line is full
    have hnext : nextLine (moveTo s s.charRaw (s.charColumn + 1)) = nextLine s := rfl
    rw [hnext]
    exact ⟨nextLine_fine hI h, fun hlast => absurd hend (by dsimp only [moveTo]; omega)⟩
  · exact ⟨h.moveTo hI h.1.row ⟨by omega, Int.not_le.mp hend⟩, fun _ => rfl⟩

theorem putChar_fine (hI : Stable I) (h : Fine I s) :
    (putChar s c color).Returns fun s' => Fine I s' ∧
      (s.charColumn < 127 → s'.charColumn = s.charColumn + 1 ∧ s'.ansiState = s.ansiState) := by
  have hput : Fine I (withCell s s.charRaw s.charColumn c (finalColor s.pen color)) :=
    ⟨h.1.withCell, hI.put h.1.row h.1.col h.2⟩
  obtain ⟨hfine, hmove⟩ := advance_fine hI hput
  unfold putChar
  rw [putCell_ret h.1.row h.1.col]
  refine .ret ⟨hfine, fun hlast => ?_⟩
  rw [hmove hlast]
  exact ⟨rfl, rfl⟩

/-- A space is printed by a call of its own. -/
theorem printCharIn_space {depth : Nat} (hn : s.ansiState = .normal) :
    printCharIn (depth + 1) s 32 color = putChar s 32 color := by
  unfold printCharIn plainByte
  rw [hn]
  rfl

/-- A tab reaches its stop. -/
theorem tabLoop_fine (hI : Stable I) {depth fuel : Nat} {stop : Int} (hstop : stop ≤ 127)
    (hfuel : (stop - s.charColumn).toNat < fuel) (h : Fine I s) (hn : s.ansiState = .normal) :
    (tabLoop (fun s => printCharIn (depth + 1) s 32 color) stop fuel s).Returns (Fine I) := by
  induction fuel generalizing s with
  | zero => exact absurd hfuel (Nat.not_lt_zero _)
  | succ fuel ih =>
      unfold tabLoop
      refine .ite (fun hlt => ?_) fun _ => .ret h
      rw [printCharIn_space hn]
      refine .bind (putChar_fine hI h) fun s' hs' => ?_
      obtain ⟨hcol, hn'⟩ := hs'.2 (by omega)
      exact ih (by omega) hs'.1 (hn'.trans hn)

theorem plainByte_fine (hI : Stable I) {depth : Nat} (h : Fine I s) (hn : s.ansiState = .normal) :
    (plainByte (fun s => printCharIn (depth + 1) s 32 color) s c color).Returns (Fine I) := by
  have hrow := h.1.row
  have hcol := h.1.col
  unfold plainByte
  refine .ite (fun _ => ?tab) fun _ => .ite (fun _ => ?backspace) fun _ => .ite (fun _ => ?home) fun _ =>
    .ite (fun _ => ?newline) fun _ => (putChar_fine hI h).mono fun _ hs' => hs'.1
  case tab =>
    have hstop : nextStop s ≤ 127 ∧ nextStop s ≤ s.charColumn + 8 := by
      unfold nextStop screenWidth
      omega
    exact tabLoop_fine hI hstop.1 (by omega) h hn
  case backspace =>
    refine .ret ?_
    unfold backspace screenWidth
    split_ifs
    · exact h.moveTo hI hrow (by omega)
    · exact h.moveTo hI (by omega) (by decide)
    · exact h
  case home => exact .ret (h.moveTo hI hrow (by decide))
  case newline => exact .ret (nextLine_fine hI h)

theorem printChar_fine (hI : Stable I) (h : Fine I s) : (printChar s c color).Returns (Fine I) := by
  have hstate : ∀ state, Fine I { s with ansiState := state } :=
    fun _ => h.registers hI { h.1 with } rfl rfl rfl
  unfold printChar printCharIn
  cases hn : s.ansiState with
  | normal =>
      refine .ite (fun _ => .ret (hstate _)) fun _ => .ite (fun _ => .ret h) fun _ => ?_
      exact plainByte_fine hI h hn
  | escape =>
      refine .ite (fun _ => .ret ?_) fun _ => .ret (hstate _)
      have hnparams : (0 : Int) ≤ 0 ∧ (0 : Int) ≤ 7 := by decide
      exact h.registers hI { h.1 with nparams := hnparams, params := fun _ _ => zero_param } rfl rfl rfl
  | csi => exact csiByte_fine hI h

/-- No byte leads out of range. -/
theorem printAll_fine (hI : Stable I) (h : Fine I s) (bytes : List (UInt8 × UInt8)) :
    (printAll s bytes).Returns (Fine I) :=
  .foldlM (fun _ _ _ hs => printChar_fine hI hs) h

end Operations

theorem inRange_boot (d : Display) : InRange (bootStatics d) where
  row := zero_row
  col := zero_col
  altRow := zero_row
  altCol := zero_col
  savedRow := zero_row
  savedCol := zero_col
  nparams := (by decide : (0 : Int) ≤ 0 ∧ (0 : Int) ≤ 7)
  params _ _ := zero_param

/-- From a cleared console on, whatever has been printed before and is printed
then: every access is to a cell or a parameter, the tabs end, and the cursor
is in range. -/
theorem console_in_range (d : Display) (before bytes : List (UInt8 × UInt8)) :
    (do
      let s ← printAll (bootStatics d) before
      printAll (clear s) bytes).Returns InRange := by
  have hbefore := printAll_fine stable_true ⟨inRange_boot d, trivial⟩ before
  refine .bind hbefore fun s hs => ?_
  exact (printAll_fine stable_true ⟨hs.1.clear, trivial⟩ bytes).mono fun _ h => h.1

end LiteBSD.Tty
