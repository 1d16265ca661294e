/-
# `LiteBSD.Tty.Erase` — which cells the erase sequences blank

`ESC [ J` is to blank the screen from the cursor on, in the order the cells
are read, and `ESC [ 1 J` up to the cursor; `ESC [ K` and `ESC [ 1 K` the
same within the row.  With the parameter 2 it is all of it.

`ansi_csi` fills ONE rectangle, and makes no difference between 0 and 1.  So
two things go wrong:

  * below the row of the cursor, `ESC [ J` leaves what is left of the
    cursor's column;
  * `ESC [ 1 J` and `ESC [ 1 K` blank what is to the right of the cursor, and
    none of what is to the left.

That is not seen if the cells in question are blank already, and only then
(`erased_iff`).
-/
import LiteBSD.Tty.Sequence
import LiteBSD.Tty.Mirror

namespace LiteBSD.Tty

/-- The erase sequences: `J`, `0J`, `1J`, `2J`, `K`, `0K`, `1K` and `2K`. -/
inductive Erasure where
  | below
  | below0
  | above
  | screen
  | right
  | right0
  | left
  | line
deriving DecidableEq, Repr

namespace Erasure

/-- `J` or `K` -/
def final : Erasure → UInt8
  | .below | .below0 | .above | .screen => 74
  | .right | .right0 | .left | .line => 75

def numbers : Erasure → List (List UInt8)
  | .below | .right => []
  | .below0 | .right0 => [[48]]
  | .above | .left => [[49]]
  | .screen | .line => [[50]]

def bytes (e : Erasure) : List UInt8 := sequence e.numbers e.final

/-- The cells that are to be blanked, with the cursor at `(r, c)`. -/
def covers (r c : Nat) : Erasure → Nat → Nat → Prop
  | .below, row, col | .below0, row, col => r < row ∨ row = r ∧ c ≤ col
  | .above, row, col => row < r ∨ row = r ∧ col ≤ c
  | .screen, _, _ => True
  | .right, row, col | .right0, row, col => row = r ∧ c ≤ col
  | .left, row, col => row = r ∧ col ≤ c
  | .line, row, _ => row = r

end Erasure

/-- The cell is as the erase sequences leave it. -/
def Blank (s : Statics) (row col : Nat) : Prop :=
  s.textGrid row col = 32 ∧ s.colorGrid row col = colorLightGrey

/-- The cell is as before. -/
def SameCell (s s' : Statics) (row col : Nat) : Prop :=
  s'.textGrid row col = s.textGrid row col ∧ s'.colorGrid row col = s.colorGrid row col

/-- The cells that are to be blanked are, all others and the cursor are as
before. -/
def Erased (e : Erasure) (r c : Nat) (s s' : Statics) : Prop :=
  (∀ row < 48, ∀ col < 128, (e.covers r c row col → Blank s' row col) ∧
    (¬e.covers r c row col → SameCell s s' row col)) ∧
  s'.charRaw = s.charRaw ∧ s'.charColumn = s.charColumn

/-- The cells that a sequence leaves and should blank, or blanks and should
leave. -/
def Erasure.mistaken (r c : Nat) : Erasure → Nat → Nat → Prop
  | .below, row, col | .below0, row, col => r < row ∧ col < c
  | .above, row, col =>
      row < r ∨ row = r ∧ col < c ∨ r ≤ row ∧ c ≤ col ∧ ¬(row = r ∧ col = c)
  | .left, row, col => row = r ∧ col ≠ c
  | .screen, _, _ | .right, _, _ | .right0, _, _ | .line, _, _ => False

/-! ## The rectangle -/

section Fill

variable {s : Statics} {attr : UInt8}

theorem mem_cellsOf_iff {row0 col0 row1 col1 : Int} {p : Int × Int} :
    p ∈ cellsOf row0 col0 row1 col1 ↔ (row0 ≤ p.1 ∧ p.1 < row1) ∧ col0 ≤ p.2 ∧ p.2 < col1 := by
  refine ⟨mem_cellsOf, fun h => ?_⟩
  refine List.mem_flatMap.mpr ⟨(p.1 - row0).toNat, List.mem_range.mpr (by omega), ?_⟩
  refine List.mem_map.mpr ⟨(p.2 - col0).toNat, List.mem_range.mpr (by omega), ?_⟩
  exact Prod.ext (by dsimp only; omega) (by dsimp only; omega)

/-- From `s` to `s'` the cells of `cells` have become spaces. -/
structure FilledWith (attr : UInt8) (cells : List (Int × Int)) (s s' : Statics) : Prop where
  filled : ∀ row col : Nat, ((row : Int), (col : Int)) ∈ cells →
    s'.textGrid row col = 32 ∧ s'.colorGrid row col = attr
  other : ∀ row col : Nat, ((row : Int), (col : Int)) ∉ cells → SameCell s s' row col
  row : s'.charRaw = s.charRaw
  column : s'.charColumn = s.charColumn

theorem putCells_filled {cells : List (Int × Int)}
    (hcells : ∀ p ∈ cells, (0 ≤ p.1 ∧ p.1 < 48) ∧ 0 ≤ p.2 ∧ p.2 < 128) :
    (cells.foldlM (fun s p => putCell s p.1 p.2 32 attr) s).Returns (FilledWith attr cells s) := by
  induction cells generalizing s with
  | nil => exact .ret ⟨fun _ _ h => absurd h List.not_mem_nil, fun _ _ _ => ⟨rfl, rfl⟩, rfl, rfl⟩
  | cons p cells ih =>
      obtain ⟨hrow, hcol⟩ := hcells p List.mem_cons_self
      show (putCell s p.1 p.2 32 attr >>= fun t => cells.foldlM _ t).Returns _
      rw [putCell_ret hrow hcol, Exec.ret_bind]
      refine (ih fun q hq => hcells q (List.mem_cons_of_mem p hq)).mono fun s' h => ?_
      have hcell (row col : Nat) : ((row : Int), (col : Int)) = p ↔ row = p.1.toNat ∧ col = p.2.toNat := by
        rw [Prod.ext_iff]
        dsimp only
        omega
      refine ⟨fun row col hmem => ?_, fun row col hmem => ?_, h.row, h.column⟩
      · by_cases hlater : ((row : Int), (col : Int)) ∈ cells
        · exact h.filled row col hlater
        · have hp := (List.mem_cons.mp hmem).resolve_right hlater
          obtain ⟨htext, hcolor⟩ := h.other row col hlater
          rw [htext, hcolor]
          show setGrid _ _ _ _ row col = 32 ∧ setGrid _ _ _ _ row col = attr
          rw [setGrid_at, setGrid_at, if_pos ((hcell row col).mp hp), if_pos ((hcell row col).mp hp)]
          exact ⟨rfl, rfl⟩
      · rw [List.mem_cons, not_or] at hmem
        obtain ⟨htext, hcolor⟩ := h.other row col hmem.2
        have hp := fun hc => hmem.1 ((hcell row col).mpr hc)
        refine ⟨htext.trans ?_, hcolor.trans ?_⟩
        · show setGrid _ _ _ _ row col = _
          rw [setGrid_at, if_neg hp]
        · show setGrid _ _ _ _ row col = _
          rw [setGrid_at, if_neg hp]

/-- A rectangle that is on the screen is filled as it is. -/
theorem vgaFill_filled {row0 col0 row1 col1 : Int} (hrow : 0 ≤ row0) (hcol : 0 ≤ col0)
    (hrow' : row1 ≤ 48) (hcol' : col1 ≤ 128) :
    (vgaFill s row0 col0 row1 col1 attr).Returns
      (FilledWith attr (cellsOf row0 col0 row1 col1) s) := by
  have hcells : cellsOf (max row0 0) (max col0 0) (min row1 screenHeight) (min col1 screenWidth) =
      cellsOf row0 col0 row1 col1 := by
    rw [Int.max_eq_left hrow, Int.max_eq_left hcol]
    exact congrArg₂ _ (Int.min_eq_left hrow') (Int.min_eq_left hcol')
  unfold vgaFill
  rw [hcells]
  refine putCells_filled fun p hp => ?_
  have hmem := mem_cellsOf hp
  omega

end Fill

/-! ## The sequences -/

/-- The cells that are filled, with the cursor at `(r, c)`. -/
def Erasure.rectangle (r c : Int) : Erasure → List (Int × Int)
  | .below | .below0 | .above => cellsOf r c 48 128
  | .screen => cellsOf 0 0 48 128
  | .right | .right0 | .left => cellsOf r c (r + 1) 128
  | .line => cellsOf r 0 (r + 1) 128

section Sequences

variable {s : Statics} {e : Erasure}

/-- What the letter does, once the number has been read. -/
theorem ansiCsi_erase {p : Nat → Int} {n : Nat} (h : InRange s)
    (hparams : paramsOf p n = kept e.numbers) :
    (ansiCsi (withParams s p n false) e.final).Returns
      (FilledWith colorLightGrey (e.rectangle s.charRaw s.charColumn) s) := by
  have hrow := h.row
  have hcol := h.col
  have hfirst (v : Int) (hkept : kept e.numbers = [v]) (hv : 0 ≤ v) :
      ansiCsi (withParams s p n false) e.final = ansiFinal (withParams s p n false) e.final v := by
    rw [ansiCsi, ansiParam_first (hparams.trans hkept) hv, Exec.ret_bind]
  have hfill {row0 col0 row1 col1 : Int} (hfrom : 0 ≤ row0 ∧ 0 ≤ col0) (hto : row1 ≤ 48 ∧ col1 ≤ 128) :
      (vgaFill (withParams s p n false) row0 col0 row1 col1 colorLightGrey).Returns
        (FilledWith colorLightGrey (cellsOf row0 col0 row1 col1) s) := by
    refine (vgaFill_filled hfrom.1 hfrom.2 hto.1 hto.2).mono fun s' hs' => ?_
    exact ⟨hs'.filled, hs'.other, hs'.row, hs'.column⟩
  cases e with
  | below =>
      rw [hfirst 0 rfl (by decide)]
      exact hfill ⟨hrow.1, hcol.1⟩ ⟨by decide, by decide⟩
  | below0 =>
      rw [hfirst 0 rfl (by decide)]
      exact hfill ⟨hrow.1, hcol.1⟩ ⟨by decide, by decide⟩
  | above =>
      rw [hfirst 1 rfl (by decide)]
      exact hfill ⟨hrow.1, hcol.1⟩ ⟨by decide, by decide⟩
  | screen =>
      rw [hfirst 2 rfl (by decide)]
      exact hfill ⟨by decide, by decide⟩ ⟨by decide, by decide⟩
  | right =>
      rw [hfirst 0 rfl (by decide)]
      exact hfill ⟨hrow.1, hcol.1⟩ ⟨hrow.2, by decide⟩
  | right0 =>
      rw [hfirst 0 rfl (by decide)]
      exact hfill ⟨hrow.1, hcol.1⟩ ⟨hrow.2, by decide⟩
  | left =>
      rw [hfirst 1 rfl (by decide)]
      exact hfill ⟨hrow.1, hcol.1⟩ ⟨hrow.2, by decide⟩
  | line =>
      rw [hfirst 2 rfl (by decide)]
      exact hfill ⟨hrow.1, by decide⟩ ⟨hrow.2, by decide⟩

theorem Erasure.digits (e : Erasure) : ∀ d ∈ e.numbers, Digits d := by
  cases e <;> decide

theorem Erasure.letter (e : Erasure) : isLetter e.final = true := by
  cases e <;> rfl

/-- Printed in state 0, a sequence fills its rectangle. -/
theorem print_erase {bytes : List (UInt8 × UInt8)} (h : InRange s) (hnormal : s.ansiState = .normal)
    (hbytes : bytes.map Prod.fst = e.bytes) :
    (printAll s bytes).Returns
      (FilledWith colorLightGrey (e.rectangle s.charRaw s.charColumn) s) := by
  obtain ⟨p, n, hprint, _, hparams⟩ := print_sequence hnormal e.digits e.letter hbytes
  rw [hprint]
  exact ansiCsi_erase h hparams

/-- Printed while another sequence is open, it moves the cursor. -/
theorem not_erased_of_open {bytes : List (UInt8 × UInt8)} {r c : Nat} (h : InRange s)
    (hopen : s.ansiState ≠ .normal) (hbytes : bytes.map Prod.fst = e.bytes) :
    ¬(printAll s bytes).Returns (Erased e r c s) := by
  rintro ⟨s', hs', herased⟩
  obtain ⟨t, ht, _, _, hcolumn⟩ := print_aborted h hopen e.digits e.letter hbytes
  cases hs'.symm.trans ht
  have hlength : (joined e.numbers).length ≤ 1 := by
    cases e <;> decide
  have hcol := h.col
  have hsame : s'.charColumn = s.charColumn := herased.2.2
  omega

end Sequences

section Cells

variable {s s' : Statics} {e : Erasure} {r c : Nat}

/-- Filling one set of cells for another is right exactly if the cells in one
of them only were blank. -/
theorem erased_of_filled (hfilled : FilledWith colorLightGrey (e.rectangle r c) s s') :
    Erased e r c s s' ↔ ∀ row < 48, ∀ col < 128,
      ¬(e.covers r c row col ↔ ((row : Int), (col : Int)) ∈ e.rectangle r c) → Blank s row col := by
  constructor
  · rintro ⟨hcells, _⟩ row hrow col hcol hdiff
    obtain ⟨hin, hout⟩ := hcells row hrow col hcol
    by_cases hcover : e.covers r c row col
    · -- it is to be blank, and was not filled
      have hother := hfilled.other row col fun hmem => hdiff (iff_of_true hcover hmem)
      obtain ⟨htext, hcolor⟩ := hin hcover
      exact ⟨hother.1.symm.trans htext, hother.2.symm.trans hcolor⟩
    · -- it was filled, and is to be as it was
      have hmem : ((row : Int), (col : Int)) ∈ e.rectangle r c := by
        by_contra hnot
        exact hdiff (iff_of_false hcover hnot)
      obtain ⟨htext, hcolor⟩ := hout hcover
      obtain ⟨hspace, hattr⟩ := hfilled.filled row col hmem
      exact ⟨htext.symm.trans hspace, hcolor.symm.trans hattr⟩
  · intro hblank
    refine ⟨fun row hrow col hcol => ⟨fun hcover => ?_, fun hcover => ?_⟩, hfilled.row, hfilled.column⟩
    · by_cases hmem : ((row : Int), (col : Int)) ∈ e.rectangle r c
      · exact hfilled.filled row col hmem
      · obtain ⟨htext, hcolor⟩ := hfilled.other row col hmem
        have hwas := hblank row hrow col hcol fun hiff => hmem (hiff.mp hcover)
        exact ⟨htext.trans hwas.1, hcolor.trans hwas.2⟩
    · by_cases hmem : ((row : Int), (col : Int)) ∈ e.rectangle r c
      · have hwas := hblank row hrow col hcol fun hiff => hcover (hiff.mpr hmem)
        obtain ⟨hspace, hattr⟩ := hfilled.filled row col hmem
        exact ⟨hspace.trans hwas.1.symm, hattr.trans hwas.2.symm⟩
      · exact hfilled.other row col hmem

/-- Which cells those are. -/
theorem mistaken_iff {row col : Nat} (hrow : row < 48) (hcol : col < 128) :
    ¬(e.covers r c row col ↔ ((row : Int), (col : Int)) ∈ e.rectangle r c) ↔
      e.mistaken r c row col := by
  have hin : ((0 ≤ (row : Int) ∧ (row : Int) < 48) ∧ 0 ≤ (col : Int) ∧ (col : Int) < 128) := by omega
  cases e with
  | screen => simp only [Erasure.covers, Erasure.rectangle, mem_cellsOf_iff, Erasure.mistaken, hin,
      and_self, not_true_eq_false]
  | right | right0 | line =>
      simp only [Erasure.covers, Erasure.rectangle, mem_cellsOf_iff, Erasure.mistaken, iff_false,
        not_not]
      omega
  | _ =>
      simp only [Erasure.covers, Erasure.rectangle, mem_cellsOf_iff, Erasure.mistaken]
      omega

/-- Printed in state 0, a sequence is right exactly if the cells it mistakes
were blank. -/
theorem print_erased_iff {bytes : List (UInt8 × UInt8)} (h : InRange s)
    (hnormal : s.ansiState = .normal) (hrow : s.charRaw = r) (hcol : s.charColumn = c)
    (hbytes : bytes.map Prod.fst = e.bytes) :
    (printAll s bytes).Returns (Erased e r c s) ↔
      ∀ row < 48, ∀ col < 128, e.mistaken r c row col → Blank s row col := by
  obtain ⟨s', hs', hfilled⟩ := print_erase h hnormal hbytes
  rw [hrow, hcol] at hfilled
  rw [returns_iff_of_eq hs', erased_of_filled hfilled]
  refine forall₂_congr fun row hrow => forall₂_congr fun col hcol => ?_
  rw [mistaken_iff hrow hcol]

end Cells

/-- With the cursor at `(r, c)`, an erase sequence blanks the cells it is to
blank and no others exactly if no other sequence is open and the cells it
mistakes were blank before.  There are none of these for `2J`, `K`, `0K` and
`2K`. -/
theorem erased_iff (e : Erasure) {s : Statics} {r c : Nat} {bytes : List (UInt8 × UInt8)}
    (h : InRange s) (hrow : s.charRaw = r) (hcol : s.charColumn = c)
    (hbytes : bytes.map Prod.fst = e.bytes) :
    (printAll s bytes).Returns (Erased e r c s) ↔
      s.ansiState = .normal ∧
        ∀ row < 48, ∀ col < 128, e.mistaken r c row col → Blank s row col := by
  by_cases hnormal : s.ansiState = .normal
  · rw [print_erased_iff h hnormal hrow hcol hbytes, and_iff_right hnormal]
  · exact iff_of_false (not_erased_of_open h hnormal hbytes) fun hand => hnormal hand.1

/-- A cleared console with an `a` at the start of the first row and the
cursor behind it. -/
def oneLetter : Statics := moveTo (withCell (clear (bootStatics (.fb fun _ => 0))) 0 0 97 15) 0 1

theorem inRange_oneLetter : InRange oneLetter :=
  { (inRange_boot (.fb fun _ => 0)).clear with
    row := zero_row
    col := (by decide : (0 : Int) ≤ 1 ∧ (1 : Int) < 128) }

/-- `ESC [ K` behind the letter. -/
theorem right_of_letter_erased :
    (printAll oneLetter ([27, 91, 75].map fun c => (c, 15))).Returns (Erased .right 0 1 oneLetter) :=
  (erased_iff .right inRange_oneLetter rfl rfl rfl).mpr ⟨rfl, fun _ _ _ _ h => h.elim⟩

/-- `ESC [ 1 K` behind the letter leaves it. -/
theorem left_of_cursor_kept : ¬∀ (e : Erasure) (s : Statics) (r c : Nat) (bytes : List (UInt8 × UInt8)),
    InRange s → s.ansiState = .normal → s.charRaw = r → s.charColumn = c →
      bytes.map Prod.fst = e.bytes → (printAll s bytes).Returns (Erased e r c s) := by
  intro hall
  have herased := hall .left oneLetter 0 1 ([27, 91, 49, 75].map fun c => (c, 15)) inRange_oneLetter
    rfl rfl rfl rfl
  have hblank := (print_erased_iff inRange_oneLetter rfl rfl rfl rfl).mp herased 0 (by decide) 0
    (by decide) ⟨rfl, by decide⟩
  exact absurd hblank.1 (by decide)

end LiteBSD.Tty
