/-
# `LiteBSD.Tty.Mirror` — the framebuffer shows the grid

`tty.c` keeps the characters and their attributes in two arrays, and draws
them; scrolling and clearing move pixels and array elements apart from each
other.  `Mirrors` ties the two together, cell by cell.  It is kept by

  * a store into a cell, as the other blocks stay as they are;
  * scrolling, as a row of cells is 16 lines of pixels;
  * clearing, as colour 0 of the palette is black, and so a blank in black on
    black is the zero fill.

With that it is `Stable`, and the run of `LiteBSD.Tty.Range` carries it.
-/
import LiteBSD.Tty.Range

namespace LiteBSD.Tty

/-- Every cell is on the framebuffer. -/
def Mirrors (s : Statics) : Prop :=
  ∃ px, s.display = .fb px ∧ ∀ row < 48, ∀ col < 128, Shows px row col (s.textGrid row col) (s.colorGrid row col)

/-- Where a pixel of a cell is. -/
def pixelAt (row col y x : Nat) : Nat := (row * charHeight + y) * fbLine + (col * charWidth + x)

/-- Every block on the framebuffer is the one that `fb_draw_char` would draw
for the character and the attribute of the cell. -/
def ShowsGrid (s : Statics) : Prop :=
  ∃ px, s.display = .fb px ∧ ∀ row < 48, ∀ col < 128, ∀ y < charHeight, ∀ x < charWidth, ∀ px₀,
    px (pixelAt row col y x) =
      fbDrawChar px₀ (s.textGrid row col) col row (s.colorGrid row col) (pixelAt row col y x)

theorem setGrid_at {g : Nat → Nat → UInt8} {row col row' col' : Nat} {v : UInt8} :
    setGrid g row col v row' col' = if row' = row ∧ col' = col then v else g row' col' := by
  unfold setGrid
  by_cases hrow : row' = row
  · subst hrow
    rw [Function.update_self]
    by_cases hcol : col' = col
    · rw [hcol, Function.update_self, if_pos ⟨rfl, rfl⟩]
    · rw [Function.update_of_ne hcol, if_neg fun h => hcol h.2]
  · rw [Function.update_of_ne hrow, if_neg fun h => hrow h.1]

section

variable {s : Statics}

theorem Mirrors.withCell {row col : Int} {c attr : UInt8} (hrow : 0 ≤ row ∧ row < 48) (hcol : 0 ≤ col ∧ col < 128)
    (h : Mirrors s) : Mirrors (withCell s row col c attr) := by
  obtain ⟨px, hpx, hcells⟩ := h
  obtain ⟨r, rfl⟩ := Int.eq_ofNat_of_zero_le hrow.1
  obtain ⟨k, rfl⟩ := Int.eq_ofNat_of_zero_le hcol.1
  have hr : r < 48 := Int.ofNat_lt.mp hrow.2
  have hk : k < 128 := Int.ofNat_lt.mp hcol.2
  refine ⟨fbDrawChar px c k r attr, ?_, fun row' hrow' col' hcol' => ?_⟩
  · unfold Tty.withCell drawCell
    rw [hpx]
  · unfold Tty.withCell
    dsimp only
    rw [Int.toNat_natCast, Int.toNat_natCast, setGrid_at, setGrid_at]
    by_cases hcell : row' = r ∧ col' = k
    · rw [if_pos hcell, if_pos hcell, hcell.1, hcell.2]
      exact shows_drawn hr hk
    · rw [if_neg hcell, if_neg hcell]
      exact (hcells row' hrow' col' hcol').drawOther hr hk hcol' hcell

theorem Mirrors.scrollScreen (h : Mirrors s) : Mirrors (scrollScreen s) := by
  obtain ⟨px, hpx, hcells⟩ := h
  refine ⟨fbScrollUp px 1, ?_, fun row hrow col hcol => ?_⟩
  · unfold Tty.scrollScreen
    rw [hpx]
  · unfold Tty.scrollScreen scrollGrid
    dsimp only
    by_cases hlast : row + 1 < 48
    · rw [if_pos hlast, if_pos hlast]
      exact (hcells (row + 1) hlast col hcol).scrolled hlast hcol
    · have hrow : row = 47 := by omega
      rw [if_neg hlast, if_neg hlast, hrow]
      exact shows_scrolled_last hcol

theorem mirrors_clear {px : Nat → UInt32} (hpx : s.display = .fb px) : Mirrors (clear s) := by
  refine ⟨fbClear px 0, ?_, fun row hrow col hcol => shows_cleared hrow hcol⟩
  unfold clear
  rw [hpx]

theorem stable_mirrors : Stable Mirrors where
  screen htext hcolor hdisplay h := by
    unfold Mirrors
    rw [htext, hcolor, hdisplay]
    exact h
  put hrow hcol h := h.withCell hrow hcol
  scroll h := h.scrollScreen
  clear h := mirrors_clear h.choose_spec.1

/-- The display stays the framebuffer. -/
theorem stable_fb : Stable fun s => ∃ px, s.display = .fb px where
  screen _ _ hdisplay h := hdisplay ▸ h
  put _ _ h := ⟨_, by unfold withCell drawCell; rw [h.choose_spec]⟩
  scroll h := ⟨_, by unfold scrollScreen; rw [h.choose_spec]⟩
  clear h := ⟨_, by unfold clear; rw [h.choose_spec]⟩

theorem Mirrors.showsGrid (h : Mirrors s) : ShowsGrid s := by
  obtain ⟨px, hpx, hcells⟩ := h
  refine ⟨px, hpx, fun row hrow col hcol y hy x hx px₀ => ?_⟩
  rw [pixelAt, fbDrawChar_at hrow hcol hcol hy hx, if_pos ⟨rfl, rfl⟩]
  exact hcells row hrow col hcol y hy x hx

end

/-- From a cleared console on, whatever has been printed before and is printed
then, the framebuffer shows the grid. -/
theorem framebuffer_shows_grid (px : Nat → UInt32) (before bytes : List (UInt8 × UInt8)) :
    (do
      let s ← printAll (bootStatics (.fb px)) before
      printAll (clear s) bytes).Returns ShowsGrid := by
  have hbefore := printAll_fine stable_fb ⟨inRange_boot (.fb px), px, rfl⟩ before
  refine .bind hbefore fun s hs => ?_
  obtain ⟨hin, px', hpx'⟩ := hs
  have hrun := printAll_fine stable_mirrors ⟨hin.clear, mirrors_clear hpx'⟩ bytes
  exact hrun.mono fun _ h => h.2.showsGrid

end LiteBSD.Tty
