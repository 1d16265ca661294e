/-
# `LiteBSD.Tty.Paper` — the console as a screen in front of a teletype

For bytes without escape sequences the console is a teletype with lines of 128 cells,
and the screen shows its last 48 lines: a byte does on the paper what `typeByte` says,
whatever has scrolled out of sight (`console_is_teletype`).

What is seen of a text is then no matter of the steps in which it was printed: it is
the end of the text, in rows (`console_shows_text`).
-/
import LiteBSD.Lib.Teletype
import LiteBSD.Tty.Mirror

namespace LiteBSD.Tty

open Lib

/-- A character and its colours. -/
abbrev Cell := UInt8 × UInt8

def blankCell : Cell := (32, colorBlack)

/-- The cell of the grids. -/
def shown (s : Statics) (row col : Nat) : Cell := (s.textGrid row col, s.colorGrid row col)

/-- Spaces up to the next multiple of 8, or the last column. -/
def typeTab (t : Teletype Cell) (color : UInt8) : Teletype Cell :=
  (List.replicate (min ((t.pos % 128 + 8) / 8 * 8) 127 - t.pos % 128) (32, color)).foldl (·.put 128 ·) t

/-- What a byte does on the paper. -/
def typeByte (t : Teletype Cell) (b : Cell) : Teletype Cell :=
  if b.1 = 7 then t
  else if b.1 = 9 then typeTab t b.2
  else if b.1 = 8 then t.back 128 (t.top 48)
  else if b.1 = 13 then t.home 128
  else if b.1 = 10 then t.feed 128
  else t.put 128 b

/-- The screen shows the end of the paper. -/
structure OnPaper (s : Statics) (t : Teletype Cell) : Prop where
  normal : s.ansiState = .normal
  pen : s.pen = plainPen
  window : ∃ row col : Nat, s.charRaw = row ∧ s.charColumn = col ∧ Views blankCell 48 128 t (shown s) row col

/-- A character that is printed where the cursor is. -/
def Plain (c : UInt8) : Prop := c ≠ 7 ∧ c ≠ 8 ∧ c ≠ 9 ∧ c ≠ 13 ∧ c ≠ 27

instance (c : UInt8) : Decidable (Plain c) := inferInstanceAs (Decidable (_ ∧ _))

/-- A text in rows of the screen. -/
def textRows (text : List Cell) : List (List Cell) := rows 128 (fun b => b.1 = 10) text

/-- The screen shows the last rows of the text, and the cursor is behind them. -/
structure ShowsText (s : Statics) (text : List Cell) : Prop where
  cells : ∀ row < 48, ∀ col < 128,
    shown s row col = cellAt blankCell ((textRows text).drop ((textRows text).length - 48)) row col
  row : s.charRaw = min (textRows text).length 48 - 1
  col : s.charColumn = ((textRows text).getLast?.getD []).length

/-! ## A byte -/

section Bytes

variable {s : Statics} {t : Teletype Cell} {c color : UInt8}

/-- In the colours of a cleared screen a character has the colour it is printed in. -/
theorem finalColor_plain (color : UInt8) : finalColor plainPen color = color := by
  by_cases hwhite : color = colorWhite
  · subst hwhite
    decide
  · exact if_pos ⟨hwhite, rfl, rfl, rfl⟩

theorem onPaper_clear (hn : s.ansiState = .normal) : OnPaper (clear s) (.fresh blankCell) where
  normal := hn
  pen := rfl
  window := ⟨0, 0, rfl, rfl, Views.fresh (Nat.succ_pos 47) (Nat.succ_pos 127)⟩

theorem shown_scrollScreen (s : Statics) : shown (scrollScreen s) = scrolled 48 blankCell (shown s) := by
  funext row col
  show (scrollGrid s.textGrid 32 row col, scrollGrid s.colorGrid colorBlack row col) = _
  unfold scrollGrid scrolled
  split_ifs
  · rfl
  · rfl

theorem OnPaper.feed (h : OnPaper s t) : OnPaper (nextLine s) (t.feed 128) := by
  obtain ⟨row, col, hrow, hcol, hs⟩ := h.window
  unfold nextLine screenHeight
  dsimp only
  split_ifs with hend
  · have hbottom : row + 1 = 48 := by
      have hlt := hs.rowLt
      have hge : (48 : Int) ≤ s.charRaw + 1 := hend
      omega
    refine ⟨h.normal, h.pen, row, 0, ?_, rfl, ?_⟩
    · show screenHeight - 1 = (row : Int)
      unfold screenHeight
      omega
    · rw [shown_scrollScreen]
      exact hs.feed_scrolled hbottom
  · have hinside : row + 1 < 48 := by
      have hlt : ¬(48 : Int) ≤ s.charRaw + 1 := hend
      omega
    refine ⟨h.normal, h.pen, row + 1, 0, ?_, rfl, hs.feed_inside hinside⟩
    show s.charRaw + 1 = ((row + 1 : Nat) : Int)
    omega

/-- The cursor behind the character. -/
theorem OnPaper.step (h : OnPaper s t) : OnPaper (advance s) (t.step 128) := by
  obtain ⟨row, col, hrow, hcol, hs⟩ := h.window
  have hlt := hs.colLt
  unfold advance screenWidth
  dsimp only
  split_ifs with hend
  · have hlast : col + 1 = 128 := by
      have hge : (128 : Int) ≤ s.charColumn + 1 := hend
      omega
    have hnext : nextLine (moveTo s s.charRaw (s.charColumn + 1)) = nextLine s := rfl
    rw [hnext, hs.step_end hlast]
    exact h.feed
  · have hroom : col + 1 < 128 := by
      have hlt : ¬(128 : Int) ≤ s.charColumn + 1 := hend
      omega
    refine ⟨h.normal, h.pen, row, col + 1, hrow, ?_, hs.step hroom⟩
    show s.charColumn + 1 = ((col + 1 : Nat) : Int)
    omega

theorem OnPaper.mark (h : OnPaper s t) (c color : UInt8) :
    OnPaper (withCell s s.charRaw s.charColumn c (finalColor s.pen color)) (t.mark (c, color)) := by
  obtain ⟨row, col, hrow, hcol, hs⟩ := h.window
  rw [h.pen, finalColor_plain, hrow, hcol]
  refine ⟨h.normal, h.pen, row, col, hrow, hcol, hs.mark ?_ fun r c' hother => ?_⟩
  · show (setGrid s.textGrid row col c row col, setGrid s.colorGrid row col color row col) = (c, color)
    rw [setGrid_at, setGrid_at, if_pos ⟨rfl, rfl⟩, if_pos ⟨rfl, rfl⟩]
  · show (setGrid s.textGrid row col c r c', setGrid s.colorGrid row col color r c') = shown s r c'
    rw [setGrid_at, setGrid_at, if_neg hother, if_neg hother]
    rfl

theorem OnPaper.put (h : OnPaper s t) (c color : UInt8) :
    (putChar s c color).Returns fun s' => OnPaper s' (t.put 128 (c, color)) := by
  obtain ⟨row, col, hrow, hcol, hs⟩ := h.window
  have hrowLt := hs.rowLt
  have hcolLt := hs.colLt
  unfold putChar
  rw [putCell_ret (by omega) (by omega)]
  exact .ret (h.mark c color).step

theorem OnPaper.column (h : OnPaper s t) : s.charColumn = (t.pos % 128 : Nat) := by
  obtain ⟨row, col, hrow, hcol, hs⟩ := h.window
  rw [hs.column, hcol]

/-- A tab prints the spaces that are left to its stop. -/
theorem OnPaper.tab {depth fuel n : Nat} {stop : Int} (h : OnPaper s t) (hstop : stop = s.charColumn + n)
    (hlast : stop ≤ 127) (hfuel : n < fuel) :
    (tabLoop (fun s => printCharIn (depth + 1) s 32 color) stop fuel s).Returns fun s' =>
      OnPaper s' ((List.replicate n (32, color)).foldl (·.put 128 ·) t) := by
  induction n generalizing s t fuel with
  | zero =>
      obtain ⟨fuel, rfl⟩ := Nat.exists_eq_succ_of_ne_zero (Nat.ne_of_gt hfuel)
      rw [tabLoop, if_neg (by omega)]
      exact .ret h
  | succ n ih =>
      obtain ⟨fuel, rfl⟩ := Nat.exists_eq_succ_of_ne_zero (Nat.ne_of_gt (Nat.zero_lt_of_lt hfuel))
      rw [tabLoop, if_pos (by omega), printCharIn_space h.normal]
      refine .bind (h.put 32 color) fun s' hs' => ih hs' ?_ (Nat.lt_of_succ_lt_succ hfuel)
      have hbefore := h.column
      have hbehind : s'.charColumn = ((t.pos + 1) % 128 : Nat) := hs'.column
      omega

theorem OnPaper.back (h : OnPaper s t) : OnPaper (backspace s) (t.back 128 (t.top 48)) := by
  obtain ⟨row, col, hrow, hcol, hs⟩ := h.window
  unfold backspace screenWidth
  split_ifs with hinside habove
  · have hpos : 0 < col := by omega
    refine ⟨h.normal, h.pen, row, col - 1, hrow, ?_, hs.back hpos⟩
    show s.charColumn - 1 = ((col - 1 : Nat) : Int)
    omega
  · obtain rfl : col = 0 := by omega
    have hpos : 0 < row := by omega
    refine ⟨h.normal, h.pen, row - 1, 127, ?_, rfl, hs.back_line hpos⟩
    show s.charRaw - 1 = ((row - 1 : Nat) : Int)
    omega
  · obtain rfl : col = 0 := by omega
    obtain rfl : row = 0 := by omega
    rw [hs.back_stays]
    exact h

theorem OnPaper.home (h : OnPaper s t) : OnPaper (moveTo s s.charRaw 0) (t.home 128) := by
  obtain ⟨row, col, hrow, hcol, hs⟩ := h.window
  exact ⟨h.normal, h.pen, row, 0, hrow, rfl, hs.home⟩

theorem OnPaper.byte (h : OnPaper s t) (b : Cell) (hb : b.1 ≠ 27) :
    (printChar s b.1 b.2).Returns fun s' => OnPaper s' (typeByte t b) := by
  unfold printChar printCharIn
  rw [h.normal]
  dsimp only
  rw [if_neg hb]
  unfold plainByte typeByte
  split_ifs
  · exact .ret h
  · have hcolumn := h.column
    refine h.tab ?_ ?_ ?_
    · unfold nextStop screenWidth
      omega
    · unfold nextStop screenWidth
      omega
    · omega
  · exact .ret h.back
  · exact .ret h.home
  · exact .ret h.feed
  · exact h.put b.1 b.2

theorem OnPaper.printAll {bytes : List Cell} (h : OnPaper s t) (hbytes : ∀ b ∈ bytes, b.1 ≠ 27) :
    (printAll s bytes).Returns fun s' => OnPaper s' (bytes.foldl typeByte t) := by
  induction bytes generalizing s t with
  | nil => exact .ret h
  | cons b bytes ih =>
      obtain ⟨hb, hrest⟩ := List.forall_mem_cons.mp hbytes
      exact .bind (h.byte b hb) fun s' hs' => ih hs' hrest

end Bytes

/-- **A teletype.**  Whatever is printed on a cleared screen, escape sequences apart, is
on the paper of a teletype, and the screen shows the end of that. -/
theorem console_is_teletype {s : Statics} (hn : s.ansiState = .normal) {bytes : List Cell}
    (hbytes : ∀ b ∈ bytes, b.1 ≠ 27) :
    (printAll (clear s) bytes).Returns fun s' => OnPaper s' (bytes.foldl typeByte (.fresh blankCell)) :=
  (onPaper_clear hn).printAll hbytes

/-- `a`, a tab, `b`, a backspace and a line end. -/
theorem edited_line_on_paper : (printAll (clear (bootStatics (.vga fun _ => 0)))
    [(97, 7), (9, 7), (98, 7), (8, 7), (10, 7)]).Returns fun s =>
      ∃ t, OnPaper s t ∧ t.pos = 128 ∧ [t.paper 0, t.paper 7, t.paper 8] = [(97, 7), (32, 7), (98, 7)] := by
  refine (console_is_teletype rfl (by simp)).mono fun s h => ⟨_, h, ?_, ?_⟩
  · decide +kernel
  · decide +kernel

/-! ## A text -/

section Text

variable {s : Statics} {t : Teletype Cell} {text : List Cell}

theorem typed_plain (hplain : ∀ b ∈ text, Plain b.1) :
    text.foldl typeByte t = t.types 128 (fun b => b.1 = 10) text := by
  induction text generalizing t with
  | nil => rfl
  | cons b text ih =>
      obtain ⟨⟨hbell, hback, htab, hhome, -⟩, hrest⟩ := List.forall_mem_cons.mp hplain
      have hbyte : typeByte t b = if decide (b.1 = 10) = true then t.feed 128 else t.put 128 b := by
        unfold typeByte
        rw [if_neg hbell, if_neg htab, if_neg hback, if_neg hhome]
        simp only [decide_eq_true_eq]
      show text.foldl typeByte (typeByte t b) = _
      rw [ih hrest, hbyte]
      rfl

theorem OnPaper.showsText {full : List (List Cell)} {row : List Cell} (h : OnPaper s t)
    (hrows : textRows text = full ++ [row]) (hholds : Holds blankCell 128 t full row) : ShowsText s text := by
  obtain ⟨r, c, hr, hc, hs⟩ := h.window
  have hlength : (textRows text).length = t.last + 1 := by rw [hrows, List.length_append, hholds.last]; rfl
  have hreached := hs.reached
  have hrLt := hs.rowLt
  have hline : t.last = t.top 48 + r := by
    rw [← hs.line, hholds.pos, line_of hholds.room, hholds.last]
  refine ⟨fun i hi j hj => ?_, ?_, ?_⟩
  · rw [hs.cells i hi j hj, hholds.cells _ j hj, hlength, ← hrows, cellAt_drop]
    rfl
  · rw [hlength, hr]
    unfold Teletype.top at hline
    omega
  · rw [hrows, List.getLast?_concat, hc, ← hs.column, hholds.pos, column_of hholds.room]
    rfl

end Text

/-- **A text on the screen.**  A text printed on a cleared screen is seen in rows, of
which the screen shows the last 48. -/
theorem console_shows_text {s : Statics} (hn : s.ansiState = .normal) {text : List Cell}
    (hplain : ∀ b ∈ text, Plain b.1) : (printAll (clear s) text).Returns fun s' => ShowsText s' text := by
  have hescape : ∀ b ∈ text, b.1 ≠ 27 := fun b hb => (hplain b hb).2.2.2.2
  refine ((onPaper_clear hn).printAll hescape).mono fun s' h => ?_
  rw [typed_plain hplain] at h
  obtain ⟨full, row, hrows, hholds⟩ := Holds.text (Nat.succ_pos 127) (fun b => b.1 = 10) text
  exact h.showsText hrows hholds

/-- Fifty line ends and a word: it is in the last row of the screen. -/
def longText : List Cell := List.replicate 50 (10, 7) ++ [(111, 7), (107, 7)]

theorem word_in_last_row : (printAll (clear (bootStatics (.vga fun _ => 0))) longText).Returns fun s =>
    (textRows longText).length = 51 ∧ s.charRaw = 47 ∧ [shown s 47 0, shown s 47 1] = [(111, 7), (107, 7)] := by
  refine (console_shows_text rfl (by simp [longText, Plain, or_imp, forall_and])).mono fun s h => ⟨by decide +kernel, ?_, ?_⟩
  · rw [h.row]
    decide +kernel
  · rw [h.cells 47 (by decide) 0 (by decide), h.cells 47 (by decide) 1 (by decide)]
    decide +kernel

end LiteBSD.Tty
