/-
# `LiteBSD.Tty.Model` — `print_char`

The text console of `src/tty.c`: a grid of 48 rows of 128 cells, the cursor,
and the state machine for escape sequences, with one place to save the
cursor and one to save the screen.  What is on the display is a framebuffer,
or the memory of a VGA text mode.

Indices are `int`s of the source.  A store or a load outside of an array is
`undefined`.  A tab prints spaces by a call of `print_char` itself; `printChar`
takes the depth of such calls as fuel, and the loop around them its rounds,
and `LiteBSD.Tty.Range` shows that neither runs out.
-/
import LiteBSD.Exec
import LiteBSD.Tty.Framebuffer

namespace LiteBSD.Tty

/-- `VGA_COLOR_BLACK` -/
def colorBlack : UInt8 := 0
/-- `VGA_COLOR_LIGHT_GREY` -/
def colorLightGrey : UInt8 := 7
/-- `VGA_COLOR_WHITE` -/
def colorWhite : UInt8 := 15

/-- `ansi_state` -/
inductive AnsiState where
  | normal
  | escape
  | csi
deriving DecidableEq, Repr

/-- What `print_char` draws on: the framebuffer if `fb_is_active()`, the text
memory if not. -/
inductive Display where
  | fb (px : Nat → UInt32)
  | vga (mem : Nat → UInt8)

/-- The colours that characters are drawn in. -/
structure Pen where
  curFg : UInt8
  curBg : UInt8
  curBold : UInt8
  ansiStandout : Bool

/-- White on black. -/
def plainPen : Pen where
  curFg := colorWhite
  curBg := colorBlack
  curBold := 0
  ansiStandout := false

/-- The statics of `tty.c` that `print_char` uses. -/
structure Statics where
  charRaw : Int
  charColumn : Int
  textGrid : Nat → Nat → UInt8
  colorGrid : Nat → Nat → UInt8
  altTextGrid : Nat → Nat → UInt8
  altColorGrid : Nat → Nat → UInt8
  altActive : Bool
  altSavedRow : Int
  altSavedCol : Int
  ansiState : AnsiState
  ansiParams : Nat → Int
  ansiNparams : Int
  ansiPrivate : Bool
  pen : Pen
  ansiSavedRow : Int
  ansiSavedCol : Int
  display : Display

/-- The cursor is set to a cell. -/
def moveTo (s : Statics) (row col : Int) : Statics := { s with charRaw := row, charColumn := col }

/-! ## Cells -/

/-- The indices of a cell. -/
def onGrid (row col : Int) : Bool := (0 ≤ row ∧ row < screenHeight) ∧ 0 ≤ col ∧ col < screenWidth

def setGrid (g : Nat → Nat → UInt8) (row col : Nat) (v : UInt8) : Nat → Nat → UInt8 :=
  Function.update g row (Function.update (g row) col v)

/-- Where a cell is in text memory. -/
def vgaOffset (row col : Int) : Nat := ((row * screenWidth + col) * 2).toNat

def drawCell (d : Display) (row col : Int) (c attr : UInt8) : Display :=
  match d with
  | .fb px => .fb (fbDrawChar px c col row attr)
  | .vga mem =>
      .vga (Function.update (Function.update mem (vgaOffset row col) c) (vgaOffset row col + 1) attr)

/-- The state once a cell is stored and drawn. -/
def withCell (s : Statics) (row col : Int) (c attr : UInt8) : Statics :=
  { s with
    textGrid := setGrid s.textGrid row.toNat col.toNat c
    colorGrid := setGrid s.colorGrid row.toNat col.toNat attr
    display := drawCell s.display row col c attr }

/-- `text_grid[row][col] = c; color_grid[row][col] = attr;` and the drawing. -/
def putCell (s : Statics) (row col : Int) (c attr : UInt8) : Exec Statics :=
  if onGrid row col then .ret (withCell s row col c attr) else .undefined

/-- The cells of two nested loops over rows and columns. -/
def cellsOf (row0 col0 row1 col1 : Int) : List (Int × Int) :=
  (List.range (row1 - row0).toNat).flatMap fun (i : Nat) =>
    (List.range (col1 - col0).toNat).map fun (j : Nat) => (row0 + i, col0 + j)

/-- A grid whose rows have moved up, with `v` in the last one. -/
def scrollGrid (g : Nat → Nat → UInt8) (v : UInt8) : Nat → Nat → UInt8 :=
  fun row col => if row + 1 < 48 then g (row + 1) col else v

/-- Text memory whose rows have moved up. -/
def scrollVga (mem : Nat → UInt8) : Nat → UInt8 := fun i =>
  if i < 47 * 256 then mem (i + 256)
  else if i < 48 * 256 then (if i % 2 = 0 then 32 else colorBlack)
  else mem i

def scrollScreen (s : Statics) : Statics :=
  { s with
    display := match s.display with
      | .fb px => .fb (fbScrollUp px 1)
      | .vga mem => .vga (scrollVga mem)
    textGrid := scrollGrid s.textGrid 32
    colorGrid := scrollGrid s.colorGrid colorBlack
    charRaw := screenHeight - 1
    charColumn := 0 }

def clear (s : Statics) : Statics :=
  { s with
    display := match s.display with
      | .fb px => .fb (fbClear px 0)
      | .vga mem => .vga fun i => if i < 48 * 256 then (if i % 2 = 0 then 32 else colorBlack) else mem i
    textGrid := fun _ _ => 32
    colorGrid := fun _ _ => colorBlack
    charRaw := 0
    charColumn := 0
    pen := plainPen }

def altEnter (s : Statics) : Statics :=
  if s.altActive then s
  else
    clear { s with
      altTextGrid := s.textGrid
      altColorGrid := s.colorGrid
      altSavedRow := s.charRaw
      altSavedCol := s.charColumn
      altActive := true }

def altExit (s : Statics) : Exec Statics :=
  if !s.altActive then .ret s
  else do
    let s ← (cellsOf 0 0 screenHeight screenWidth).foldlM (fun (s : Statics) p =>
      putCell s p.1 p.2 (s.altTextGrid p.1.toNat p.2.toNat) (s.altColorGrid p.1.toNat p.2.toNat)) (clear s)
    .ret { moveTo s s.altSavedRow s.altSavedCol with altActive := false }

def vgaFill (s : Statics) (row0 col0 row1 col1 : Int) (attr : UInt8) : Exec Statics :=
  (cellsOf (max row0 0) (max col0 0) (min row1 screenHeight) (min col1 screenWidth)).foldlM
    (fun s p => putCell s p.1 p.2 32 attr) s

/-! ## Escape sequences -/

/-- `ansi_params[idx]` -/
def paramAt (s : Statics) (idx : Int) : Exec Int :=
  if 0 ≤ idx ∧ idx < 8 then .ret (s.ansiParams idx.toNat) else .undefined

/-- `ansi_params[idx] = v` -/
def setParam (s : Statics) (idx v : Int) : Exec Statics :=
  if 0 ≤ idx ∧ idx < 8 then .ret { s with ansiParams := Function.update s.ansiParams idx.toNat v }
  else .undefined

def ansiParam (s : Statics) (idx dflt : Int) : Exec Int :=
  if idx < 0 ∨ idx > s.ansiNparams then .ret dflt
  else do
    let v ← paramAt s idx
    .ret (if v ≤ 0 then dflt else v)

/-- `a2v[i]` -/
def a2v (i : Int) : UInt8 := [0, 4, 2, 6, 1, 5, 3, 7].getD i.toNat 0

/-- One parameter of the sequence `m`. -/
def setAttr (pen : Pen) (p : Int) : Pen :=
  if p = 0 then plainPen
  else if p = 1 then { pen with curBold := 8 }
  else if p = 22 then { pen with curBold := 0 }
  else if p = 7 then { pen with ansiStandout := true }
  else if p = 27 then { pen with ansiStandout := false }
  else if p ≥ 30 ∧ p ≤ 37 then { pen with curFg := a2v (p - 30) }
  else if p = 39 then { pen with curFg := colorWhite }
  else if p ≥ 90 ∧ p ≤ 97 then { pen with curFg := a2v (p - 90) ||| 8 }
  else if p ≥ 40 ∧ p ≤ 47 then { pen with curBg := a2v (p - 40) }
  else if p = 49 then { pen with curBg := colorBlack }
  else if p ≥ 100 ∧ p ≤ 107 then { pen with curBg := a2v (p - 100) ||| 8 }
  else pen

/-- `for (int i = 0; i <= ansi_nparams; i++)` of the sequence `m`. -/
def setAttrs (s : Statics) : Exec Statics :=
  (List.range (s.ansiNparams + 1).toNat).foldlM (fun (s : Statics) (i : Nat) => do
    let p ← paramAt s i
    .ret { s with pen := setAttr s.pen p }) s

/-- `p0 ? p0 : 1` -/
def orOne (p0 : Int) : Int := if p0 ≠ 0 then p0 else 1

/-- The cases of the `switch` over the last byte. -/
def ansiFinal (s : Statics) (final : UInt8) (p0 : Int) : Exec Statics :=
  if final = 72 ∨ final = 102 then do  -- 'H', 'f'
    let row ← ansiParam s 0 1
    let col ← ansiParam s 1 1
    .ret (moveTo s (min (max row 1) screenHeight - 1) (min (max col 1) screenWidth - 1))
  else if final = 65 then  -- 'A'
    .ret (moveTo s (max (s.charRaw - orOne p0) 0) s.charColumn)
  else if final = 66 then  -- 'B'
    .ret (moveTo s (min (s.charRaw + orOne p0) (screenHeight - 1)) s.charColumn)
  else if final = 67 then  -- 'C'
    .ret (moveTo s s.charRaw (min (s.charColumn + orOne p0) (screenWidth - 1)))
  else if final = 68 then  -- 'D'
    .ret (moveTo s s.charRaw (max (s.charColumn - orOne p0) 0))
  else if final = 74 then  -- 'J'
    if p0 = 2 then vgaFill s 0 0 screenHeight screenWidth colorLightGrey
    else vgaFill s s.charRaw s.charColumn screenHeight screenWidth colorLightGrey
  else if final = 75 then  -- 'K'
    if p0 = 2 then vgaFill s s.charRaw 0 (s.charRaw + 1) screenWidth colorLightGrey
    else vgaFill s s.charRaw s.charColumn (s.charRaw + 1) screenWidth colorLightGrey
  else if final = 109 then  -- 'm'
    if s.ansiPrivate then .ret s else setAttrs s
  else if final = 115 then  -- 's'
    if s.ansiPrivate then .ret s
    else .ret { s with ansiSavedRow := s.charRaw, ansiSavedCol := s.charColumn }
  else if final = 117 then  -- 'u'
    if s.ansiPrivate then .ret s
    else .ret (moveTo s s.ansiSavedRow s.ansiSavedCol)
  else if final = 104 then  -- 'h'
    if s.ansiPrivate ∧ p0 = 1049 then .ret (altEnter s) else .ret s
  else if final = 108 then  -- 'l'
    if s.ansiPrivate ∧ p0 = 1049 then altExit s else .ret s
  else .ret s

def ansiCsi (s : Statics) (final : UInt8) : Exec Statics := do
  let p0 ← ansiParam s 0 0
  ansiFinal s final p0

def isLetter (c : UInt8) : Bool := (65 ≤ c ∧ c ≤ 90) ∨ (97 ≤ c ∧ c ≤ 122)

/-- A byte in state 2. -/
def csiByte (s : Statics) (c : UInt8) : Exec Statics := do
  let p ← paramAt s 0
  if c = 63 ∧ s.ansiNparams = 0 ∧ p = 0 then .ret { s with ansiPrivate := true }
  else if 48 ≤ c ∧ c ≤ 57 then do
    let p ← paramAt s s.ansiNparams
    setParam s s.ansiNparams (min (p * 10 + (c.toNat - 48)) 999)
  else if c = 59 then
    if s.ansiNparams < 7 then setParam { s with ansiNparams := s.ansiNparams + 1 } (s.ansiNparams + 1) 0
    else .ret s
  else
    let s := { s with ansiState := .normal }
    if isLetter c then ansiCsi s c else .ret s

/-! ## Characters -/

/-- `char_raw++` at the end of a line, with the cursor in the first column. -/
def nextLine (s : Statics) : Statics :=
  let s := moveTo s (s.charRaw + 1) 0
  if s.charRaw ≥ screenHeight then scrollScreen s else s

/-- `final_color` -/
def finalColor (pen : Pen) (color : UInt8) : UInt8 :=
  let fg := if pen.curBold ≠ 0 then pen.curFg ||| 8 else pen.curFg
  let bg := pen.curBg
  if color ≠ colorWhite ∧ pen.curFg = colorWhite ∧ pen.curBg = colorBlack ∧ pen.curBold = 0 then color
  else if pen.ansiStandout then (bg &&& (0x0F : UInt8)) ||| ((fg &&& (0x0F : UInt8)) <<< (4 : UInt8))
  else (fg &&& (0x0F : UInt8)) ||| ((bg &&& (0x0F : UInt8)) <<< (4 : UInt8))

/-- `char_column++` behind a character. -/
def advance (s : Statics) : Statics :=
  let s := moveTo s s.charRaw (s.charColumn + 1)
  if s.charColumn ≥ screenWidth then nextLine s else s

/-- A character that is shown as it is. -/
def putChar (s : Statics) (c color : UInt8) : Exec Statics := do
  let s ← putCell s s.charRaw s.charColumn c (finalColor s.pen color)
  .ret (advance s)

/-- `while (char_column < next_stop) print_char(' ', color)` -/
def tabLoop (print : Statics → Exec Statics) (nextStop : Int) : Nat → Statics → Exec Statics
  | 0, _ => .hang
  | fuel + 1, s =>
      if s.charColumn < nextStop then do
        let s ← print s
        tabLoop print nextStop fuel s
      else .ret s

/-- `(char_column + 8) & ~7`, at most the last column. -/
def nextStop (s : Statics) : Int := min ((s.charColumn + 8) / 8 * 8) (screenWidth - 1)

/-- A backspace, also back over the end of a line. -/
def backspace (s : Statics) : Statics :=
  if s.charColumn > 0 then moveTo s s.charRaw (s.charColumn - 1)
  else if s.charRaw > 0 then moveTo s (s.charRaw - 1) (screenWidth - 1)
  else s

/-- A byte in state 0 that begins no escape sequence; `print` prints a space. -/
def plainByte (print : Statics → Exec Statics) (s : Statics) (c color : UInt8) : Exec Statics :=
  if c = 9 then tabLoop print (nextStop s) 9 s
  else if c = 8 then .ret (backspace s)
  else if c = 13 then .ret (moveTo s s.charRaw 0)
  else if c = 10 then .ret (nextLine s)
  else putChar s c color

/-- `print_char`, in calls of itself at most this deep. -/
def printCharIn : Nat → Statics → UInt8 → UInt8 → Exec Statics
  | 0, _, _, _ => .hang
  | depth + 1, s, c, color =>
      match s.ansiState with
      | .normal =>
          if c = 27 then .ret { s with ansiState := .escape }
          else if c = 7 then .ret s
          else plainByte (fun s => printCharIn depth s 32 color) s c color
      | .escape =>
          if c = 91 then
            .ret { s with ansiState := .csi, ansiNparams := 0, ansiPrivate := false, ansiParams := fun _ => 0 }
          else .ret { s with ansiState := .normal }
      | .csi => csiByte s c

def printChar (s : Statics) (c color : UInt8) : Exec Statics := printCharIn 2 s c color

/-- Bytes with their colours, printed one after the other. -/
def printAll (s : Statics) (bytes : List (UInt8 × UInt8)) : Exec Statics :=
  bytes.foldlM (fun s b => printChar s b.1 b.2) s

/-- The statics as the kernel image sets them, over a display with any
contents. -/
def bootStatics (d : Display) : Statics where
  charRaw := 0
  charColumn := 0
  textGrid _ _ := 0
  colorGrid _ _ := 0
  altTextGrid _ _ := 0
  altColorGrid _ _ := 0
  altActive := false
  altSavedRow := 0
  altSavedCol := 0
  ansiState := .normal
  ansiParams _ := 0
  ansiNparams := 0
  ansiPrivate := false
  pen := plainPen
  ansiSavedRow := 0
  ansiSavedCol := 0
  display := d

end LiteBSD.Tty
