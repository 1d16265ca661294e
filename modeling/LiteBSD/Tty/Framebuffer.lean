/-
# `LiteBSD.Tty.Framebuffer` — drawing cells of 8 by 16 pixels

`fb_clear`, `fb_scroll_up` and `fb_draw_char` of `src/drivers/fb.c`, for a
framebuffer of 1024 by 768 pixels of 32 bits and a pitch of 4096 bytes.  The
pixels are numbered from the top left on, a line of 1024 after the other.

`fb_scroll_up` copies the pixels in place, one after the other
(`repMovsl`); as it copies downwards, each of them is read before it is
written (`repMovsl_eq`).
-/
import Mathlib.Algebra.GroupWithZero.Nat
import Mathlib.Logic.Function.Basic
import Mathlib.Data.List.Basic

namespace LiteBSD.Tty

/-! ## The functions -/

/-- `fb_height` -/
def fbHeight : Nat := 768
/-- `fb_pitch / 4` -/
def fbLine : Nat := 1024
/-- `CHAR_WIDTH` -/
def charWidth : Nat := 8
/-- `CHAR_HEIGHT` -/
def charHeight : Nat := 16
/-- `screen_width` -/
def screenWidth : Int := 128
/-- `screen_height` -/
def screenHeight : Int := 48

/-- `ansi_palette` -/
def ansiPalette : List UInt32 :=
  [0x00000000, 0x001E66F5, 0x0020A020, 0x00179299, 0x00C02020, 0x008839EF, 0x00B07020, 0x00C0C0C0,
    0x00555555, 0x004080FF, 0x0040D040, 0x0040D0E0, 0x00FF4040, 0x00E040FF, 0x00FFE040, 0x00FFFFFF]

/-- `font_8x16`: the 16 bytes of a glyph, the top one first. -/
def font8x16 : List Nat := [
  0x6642004242420042426600000000, 0x0, 0x0,
  0x0, 0x0, 0x0,
  0x0, 0x0, 0x0,
  0x0, 0x0, 0x0,
  0x0, 0x0, 0x0,
  0x0, 0x0, 0x0,
  0x0, 0x0, 0x0,
  0x0, 0x0, 0x0,
  0x0, 0x0, 0x0,
  0x0, 0x0, 0x0,
  0x0, 0x0, 0x0,
  0x1010101010101000101000000000, 0x242424000000000000000000000000, 0x2424247e24247e24242400000000,
  0x10107c9290907c1212927c10100000, 0x649468081010202c524c00000000, 0x18242418304a4444443a00000000,
  0x101010000000000000000000000000, 0x810202020202020100800000000, 0x2010080808080808102000000000,
  0x24187e1824000000000000, 0x10107c1010000000000000, 0x101020000000,
  0x7e0000000000000000, 0x101000000000, 0x404080810102020404000000000,
  0x3c4242464a526242423c00000000, 0x818280808080808083e00000000, 0x3c42420204081020407e00000000,
  0x3c4242021c020242423c00000000, 0x2060a1222427e02020200000000, 0x7e4040407c020202423c00000000,
  0x1c2040407c424242423c00000000, 0x7e02020404080810101000000000, 0x3c4242423c424242423c00000000,
  0x3c424242423e0202043800000000, 0x1010000000101000000000, 0x1010000000101020000000,
  0x4081020402010080400000000, 0x7e00007e00000000000000, 0x40201008040810204000000000,
  0x3c42424204080800080800000000, 0x7c829ea2a2a2a69a807e00000000, 0x3c424242427e4242424200000000,
  0x7c4242427c424242427c00000000, 0x3c42424040404042423c00000000, 0x7844424242424242447800000000,
  0x7e40404078404040407e00000000, 0x7e40404078404040404000000000, 0x3c424240404e4242423c00000000,
  0x424242427e424242424200000000, 0x3810101010101010103800000000, 0xe04040404040444443800000000,
  0x4244485060605048444200000000, 0x4040404040404040407e00000000, 0x82c6aa9292828282828200000000,
  0x42424262524a4642424200000000, 0x3c42424242424242423c00000000, 0x7c424242427c4040404000000000,
  0x3c424242424242424a3c02000000, 0x7c424242427c5048444200000000, 0x3c4240403c020242423c00000000,
  0xfe10101010101010101000000000, 0x4242424242424242423c00000000, 0x4242424242242424181800000000,
  0x82828282829292aac68200000000, 0x4242242418182424424200000000, 0x8282444428101010101000000000,
  0x7e02020408102040407e00000000, 0x3820202020202020203800000000, 0x4040202010100808040400000000,
  0x3808080808080808083800000000, 0x102844000000000000000000000000, 0x7e0000,
  0x10080000000000000000000000000000, 0x3c023e4242423e00000000, 0x4040407c42424242427c00000000,
  0x3c42404040423c00000000, 0x202023e42424242423e00000000, 0x3c42427e40403c00000000,
  0xe10107c10101010101000000000, 0x3e42424242423e02023c00, 0x4040407c42424242424200000000,
  0x1010003010101010103800000000, 0x404000c04040404040444443800, 0x4040404244487048444200000000,
  0x3010101010101010103800000000, 0xfc92929292929200000000, 0x7c42424242424200000000,
  0x3c42424242423c00000000, 0x7c42424242427c40404000, 0x3e42424242423e02020200,
  0x5e60404040404000000000, 0x3e40403c02027c00000000, 0x1010107c10101010100e00000000,
  0x4242424242423e00000000, 0x4242422424181800000000, 0x8282929292927c00000000,
  0x4242241824424200000000, 0x4242424242423e02023c00, 0x7e04081020407e00000000,
  0xc10101020101010100c00000000, 0x1010101010101010101000000000, 0x3008080804080808083000000000,
  0x76dc0000000000000000, 0x0, 0x3c42424040404042423c10102000,
  0x2424004242424242423e00000000, 0x810003c42427e40403c00000000, 0x1824003c023e4242423e00000000,
  0x2424003c023e4242423e00000000, 0x1008003c023e4242423e00000000, 0x1824183c023e4242423e00000000,
  0x3c42404040423c10102000, 0x1824003c42427e40403c00000000, 0x2424003c42427e40403c00000000,
  0x1008003c42427e40403c00000000, 0x4848003010101010103800000000, 0x3048003010101010103800000000,
  0x2010003010101010103800000000, 0x2424003c4242427e4242424200000000, 0x1824183c4242427e4242424200000000,
  0x810007e404040784040407e00000000, 0x6c12729e90906c00000000, 0x7e909090fc909090909e00000000,
  0x1824003c42424242423c00000000, 0x2424003c42424242423c00000000, 0x1008003c42424242423c00000000,
  0x1824004242424242423e00000000, 0x1008004242424242423e00000000, 0x2424004242424242423e02023c00,
  0x2424003c424242424242423c00000000, 0x24240042424242424242423c00000000, 0x10107c92909090927c10100000,
  0x1824202078202020227e00000000, 0x82824428107c107c101000000000, 0xf0888888f4848e84848200000000,
  0xc1210107c101010101010906000, 0x810003c023e4242423e00000000, 0x810003010101010103800000000,
  0x810003c42424242423c00000000, 0x810004242424242423e00000000, 0x324c007c42424242424200000000,
  0x324c00424262524a4642424200000000, 0x38043c443c007c0000000000000000, 0x3844444438007c0000000000000000,
  0x1010001010204242423c00000000, 0x7e40404000000000000000, 0x7e02020200000000000000,
  0x20602022240810204c9204081e0000, 0x2060202224081022468a1e02020000, 0x1010001010101010101000000000,
  0x1224489048241200000000, 0x9048241224489000000000, 0x88228822882288228822882288228822,
  0xaa55aa55aa55aa55aa55aa55aa55aa55, 0xeebbeebbeebbeebbeebbeebbeebbeebb, 0x10101010101010101010101010101010,
  0x10101010101010f01010101010101010, 0x101010101010f010f010101010101010, 0x28282828282828e82828282828282828,
  0xf82828282828282828, 0xf010f010101010101010, 0x282828282828e808e828282828282828,
  0x28282828282828282828282828282828, 0xf808e828282828282828, 0x282828282828e808f800000000000000,
  0x28282828282828f80000000000000000, 0x101010101010f010f000000000000000, 0xf01010101010101010,
  0x101010101010101f0000000000000000, 0x10101010101010ff0000000000000000, 0xff1010101010101010,
  0x101010101010101f1010101010101010, 0xff0000000000000000, 0x10101010101010ff1010101010101010,
  0x1010101010101f101f10101010101010, 0x282828282828282f2828282828282828, 0x2828282828282f203f00000000000000,
  0x3f202f28282828282828, 0x282828282828ef00ff00000000000000, 0xff00ef28282828282828,
  0x2828282828282f202f28282828282828, 0xff00ff00000000000000, 0x282828282828ef00ef28282828282828,
  0x101010101010ff00ff00000000000000, 0x28282828282828ff0000000000000000, 0xff00ff10101010101010,
  0xff2828282828282828, 0x282828282828283f0000000000000000, 0x1010101010101f101f00000000000000,
  0x1f101f10101010101010, 0x3f2828282828282828, 0x28282828282828ff2828282828282828,
  0x101010101010ff10ff10101010101010, 0x10101010101010f00000000000000000, 0x1f1010101010101010,
  0xffffffffffffffffffffffffffffffff, 0xffffffffffffffff, 0xf0f0f0f0f0f0f0f0f0f0f0f0f0f0f0f0,
  0xf0f0f0f0f0f0f0f0f0f0f0f0f0f0f0f, 0xffffffffffffffff0000000000000000, 0x3a46444444463a00000000,
  0x384444487c424242625c00000000, 0x7e40404040404040404000000000, 0x7e42424242424200000000,
  0x7e40201008081020407e00000000, 0x3e44444444443800000000, 0x4242424242467a40404000,
  0xfe10101010100c00000000, 0x107c9292929292927c1000000000, 0x3c4242425a424242423c00000000,
  0x3c42424242424224246600000000, 0x3e10083c42424242423c00000000, 0x7c9292927c000000000000,
  0x4c92929292927c10101000, 0x3c42403840423c00000000, 0x3c4242424242424200000000,
  0x7e00007e00007e0000000000, 0x10107c1010007c00000000, 0x20100804081020007c00000000,
  0x4081020100804003e00000000, 0xc12121010101010101010101010, 0x10101010101010101090906000000000,
  0x1010007c0010100000000000, 0x324c00324c000000000000, 0x182424180000000000000000000000,
  0x181800000000000000, 0x101000000000000000, 0x60404040444444424140c00000000,
  0x3824242424000000000000000000, 0x18240408103c000000000000000000, 0x3c3c3c3c3c3c0000000000,
  0x0]

/-- `font_8x16[c][y]` -/
def glyph (c : UInt8) (y : Nat) : UInt8 := (font8x16.getD c.toNat 0 / 256 ^ (15 - y)).toUInt8

/-- `rep stosl` -/
def repStosl (px : Nat → UInt32) (dst count : Nat) (color : UInt32) : Nat → UInt32 :=
  fun i => if dst ≤ i ∧ i < dst + count then color else px i

/-- `rep movsl` -/
def repMovsl : (Nat → UInt32) → Nat → Nat → Nat → (Nat → UInt32)
  | px, _, _, 0 => px
  | px, dst, src, count + 1 => repMovsl (Function.update px dst (px src)) (dst + 1) (src + 1) count

def fbClear (px : Nat → UInt32) (color : UInt32) : Nat → UInt32 := repStosl px 0 (fbHeight * fbLine) color

def fbScrollUp (px : Nat → UInt32) (charRows : Nat) : Nat → UInt32 :=
  let pixelRows := charRows * charHeight
  if pixelRows ≥ fbHeight then fbClear px 0
  else
    let px := repMovsl px 0 (pixelRows * fbLine) ((fbHeight - pixelRows) * fbLine)
    repStosl px ((fbHeight - pixelRows) * fbLine) (pixelRows * fbLine) 0

/-- What a bit of a glyph is drawn as. -/
def pixel (bits : UInt8) (fg bg : UInt32) (x : Nat) : UInt32 :=
  if bits &&& (0x80 >>> x.toUInt8) ≠ 0 then fg else bg

/-- `line_ptr[0] = ...` to `line_ptr[7] = ...` -/
def drawLine (px : Nat → UInt32) (line : Nat) (bits : UInt8) (fg bg : UInt32) : Nat → UInt32 :=
  (List.range charWidth).foldl (fun px x => Function.update px (line + x) (pixel bits fg bg x)) px

/-- The two colours of an attribute. -/
def fgOf (attr : UInt8) : UInt32 := ansiPalette.getD (attr &&& 0x0F).toNat 0
def bgOf (attr : UInt8) : UInt32 := ansiPalette.getD ((attr >>> 4) &&& 0x0F).toNat 0

def fbDrawChar (px : Nat → UInt32) (c : UInt8) (col row : Int) (attr : UInt8) : Nat → UInt32 :=
  if col < 0 ∨ col ≥ screenWidth ∨ row < 0 ∨ row ≥ screenHeight then px
  else
    (List.range charHeight).foldl (fun px y =>
      drawLine px ((row.toNat * charHeight + y) * fbLine + col.toNat * charWidth) (glyph c y) (fgOf attr) (bgOf attr)) px

/-! ## The pixels behind them -/

section Pixels

variable {px : Nat → UInt32} {i : Nat}

/-- A copy downwards reads each word before it is written. -/
theorem repMovsl_eq {dst src count : Nat} (h : dst < src) :
    repMovsl px dst src count i = if dst ≤ i ∧ i < dst + count then px (i + (src - dst)) else px i := by
  induction count generalizing px dst src with
  | zero => rw [repMovsl, if_neg (by omega)]
  | succ count ih =>
      rw [repMovsl, ih (Nat.succ_lt_succ h), Nat.succ_sub_succ]
      by_cases hi : i = dst
      · subst hi
        rw [if_neg (by omega), if_pos (by omega), Function.update_self, Nat.add_sub_cancel' (Nat.le_of_lt h)]
      · rw [Function.update_of_ne hi]
        by_cases hin : dst + 1 ≤ i ∧ i < dst + 1 + count
        · have hsrc : i + (src - dst) ≠ dst := by omega
          rw [if_pos hin, if_pos (by omega), Function.update_of_ne hsrc]
        · rw [if_neg hin, if_neg (by omega)]

/-- Words that are stored side by side. -/
theorem foldl_update (f : Nat → UInt32) (line n : Nat) :
    (List.range n).foldl (fun px x => Function.update px (line + x) (f x)) px i =
      if line ≤ i ∧ i < line + n then f (i - line) else px i := by
  induction n with
  | zero => rw [if_neg (by omega)]; rfl
  | succ n ih =>
      rw [List.range_succ, List.foldl_append, List.foldl_cons, List.foldl_nil]
      by_cases hi : i = line + n
      · rw [hi, Function.update_self, if_pos (by omega), Nat.add_sub_cancel_left]
      · rw [Function.update_of_ne hi, ih]
        refine if_congr ?_ rfl rfl
        omega

/-- A line of a glyph, by the coordinates of the pixels. -/
theorem drawLine_at {line col y x : Nat} {bits : UInt8} {fg bg : UInt32} (hcol : col + charWidth ≤ fbLine)
    (hx : x < fbLine) :
    drawLine px (line * fbLine + col) bits fg bg (y * fbLine + x) =
      if y = line ∧ col ≤ x ∧ x < col + charWidth then pixel bits fg bg (x - col) else px (y * fbLine + x) := by
  unfold drawLine
  rw [foldl_update]
  unfold fbLine charWidth at *
  by_cases hy : y = line
  · subst hy
    refine if_congr ?_ (congrArg _ ?_) rfl <;> omega
  · rw [if_neg (by omega), if_neg (by omega)]

/-- A whole glyph, by the coordinates of the pixels. -/
theorem drawLines_at {row col n y x : Nat} {bits : Nat → UInt8} {fg bg : UInt32} (hcol : col + charWidth ≤ fbLine)
    (hx : x < fbLine) :
    (List.range n).foldl (fun px k => drawLine px ((row + k) * fbLine + col) (bits k) fg bg) px (y * fbLine + x) =
      if row ≤ y ∧ y < row + n ∧ col ≤ x ∧ x < col + charWidth then pixel (bits (y - row)) fg bg (x - col)
      else px (y * fbLine + x) := by
  induction n with
  | zero => rw [if_neg (by omega)]; rfl
  | succ n ih =>
      rw [List.range_succ, List.foldl_append, List.foldl_cons, List.foldl_nil, drawLine_at hcol hx, ih]
      by_cases hy : y = row + n
      · subst hy
        rw [if_neg (c := row ≤ row + n ∧ row + n < row + n ∧ _) (by omega), Nat.add_sub_cancel_left]
        refine if_congr ?_ rfl rfl
        omega
      · rw [if_neg (by tauto)]
        refine if_congr ?_ rfl rfl
        omega

end Pixels

/-! ## Cells -/

/-- The block of the cell is that of the character. -/
def Shows (px : Nat → UInt32) (row col : Nat) (c attr : UInt8) : Prop :=
  ∀ y < charHeight, ∀ x < charWidth,
    px ((row * charHeight + y) * fbLine + (col * charWidth + x)) = pixel (glyph c y) (fgOf attr) (bgOf attr) x

section Cells

variable {px : Nat → UInt32} {row col row' col' : Nat} {c attr c' attr' : UInt8}

theorem fbDrawChar_at (hrow : row < 48) (hcol : col < 128) (hcol' : col' < 128) {y x : Nat} (hy : y < charHeight)
    (hx : x < charWidth) :
    fbDrawChar px c col row attr ((row' * charHeight + y) * fbLine + (col' * charWidth + x)) =
      if row' = row ∧ col' = col then pixel (glyph c y) (fgOf attr) (bgOf attr) x
      else px ((row' * charHeight + y) * fbLine + (col' * charWidth + x)) := by
  unfold fbDrawChar
  rw [if_neg (by unfold screenWidth screenHeight; omega), Int.toNat_natCast, Int.toNat_natCast]
  unfold charWidth at hx
  unfold charHeight at hy
  rw [drawLines_at (by unfold charWidth fbLine; omega) (by unfold charWidth fbLine; omega)]
  unfold charHeight charWidth
  by_cases hcell : row' = row ∧ col' = col
  · obtain ⟨rfl, rfl⟩ := hcell
    rw [if_pos (by omega), if_pos ⟨rfl, rfl⟩, Nat.add_sub_cancel_left, Nat.add_sub_cancel_left]
  · rw [if_neg (by omega), if_neg hcell]

/-- A character that is drawn is shown. -/
theorem shows_drawn (hrow : row < 48) (hcol : col < 128) : Shows (fbDrawChar px c col row attr) row col c attr := by
  intro y hy x hx
  rw [fbDrawChar_at hrow hcol hcol hy hx, if_pos ⟨rfl, rfl⟩]

/-- The other cells are as before. -/
theorem Shows.drawOther (h : Shows px row' col' c' attr') (hrow : row < 48) (hcol : col < 128) (hcol' : col' < 128)
    (hne : ¬(row' = row ∧ col' = col)) : Shows (fbDrawChar px c col row attr) row' col' c' attr' := by
  intro y hy x hx
  rw [fbDrawChar_at hrow hcol hcol' hy hx, if_neg hne]
  exact h y hy x hx

/-- Black on black is black, whatever the glyph. -/
theorem shows_of_zero (h : ∀ y < charHeight, ∀ x < charWidth,
    px ((row * charHeight + y) * fbLine + (col * charWidth + x)) = 0) : Shows px row col c 0 := by
  intro y hy x hx
  rw [h y hy x hx]
  have hfg : fgOf 0 = 0 := by decide
  have hbg : bgOf 0 = 0 := by decide
  rw [pixel, hfg, hbg, ite_self]

theorem shows_cleared (hrow : row < 48) (hcol : col < 128) : Shows (fbClear px 0) row col c 0 := by
  refine shows_of_zero fun y hy x hx => ?_
  unfold charHeight at hy
  unfold charWidth at hx
  unfold fbClear repStosl
  rw [if_pos]
  unfold charHeight charWidth fbLine fbHeight
  omega

/-- Scrolling shows the row below. -/
theorem Shows.scrolled (h : Shows px (row + 1) col c attr) (hrow : row + 1 < 48) (hcol : col < 128) :
    Shows (fbScrollUp px 1) row col c attr := by
  intro y hy x hx
  rw [← h y hy x hx]
  unfold charHeight at hy
  unfold charWidth at hx
  unfold fbScrollUp repStosl
  dsimp only
  rw [if_neg (by decide), if_neg (by unfold charHeight charWidth fbLine fbHeight; omega),
    repMovsl_eq (by decide), if_pos (by unfold charHeight charWidth fbLine fbHeight; omega)]
  refine congrArg px ?_
  unfold charHeight charWidth fbLine
  omega

/-- Scrolling leaves the last row black. -/
theorem shows_scrolled_last (hcol : col < 128) : Shows (fbScrollUp px 1) 47 col c 0 := by
  refine shows_of_zero fun y hy x hx => ?_
  unfold charHeight at hy
  unfold charWidth at hx
  unfold fbScrollUp repStosl
  dsimp only
  rw [if_neg (by decide), if_pos]
  unfold charHeight charWidth fbLine fbHeight
  omega

end Cells

end LiteBSD.Tty
