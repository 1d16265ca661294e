/-
# `LiteBSD.Lib.Teletype` — paper without end, and a screen in front of it

A teletype prints cells on a strip of paper, `w` of them in a line.  Nothing that is
printed ever moves.  A screen of `h` lines shows the end of the paper: `Views` says
so, and of where the cursor is.  When the cursor leaves the last line of the screen
the window moves down, that is, what is on the screen moves up (`Views.feed`).

A text that is typed on fresh paper is on it in rows, a new one behind every line end
and behind every `w` cells (`rows`, `Holds.text`).
-/
import Mathlib.Data.List.Basic
import Mathlib.Data.List.Induction
import Mathlib.Logic.Function.Basic

namespace LiteBSD.Lib

/-- The paper, the cell where the head is, and the last line that it has been in. -/
structure Teletype (α : Type) where
  paper : Nat → α
  pos : Nat
  last : Nat

namespace Teletype

variable {α : Type} (w : Nat)

/-- Paper on which nothing has been printed. -/
def fresh (blank : α) : Teletype α := ⟨fun _ => blank, 0, 0⟩

/-- A cell is printed; the head stays. -/
def mark (t : Teletype α) (x : α) : Teletype α := { t with paper := Function.update t.paper t.pos x }

/-- The head moves on. -/
def step (t : Teletype α) : Teletype α :=
  { t with pos := t.pos + 1, last := max t.last ((t.pos + 1) / w) }

/-- A cell is printed, and the head moves on. -/
def put (t : Teletype α) (x : α) : Teletype α := (t.mark x).step w

/-- To the beginning of the next line. -/
def feed (t : Teletype α) : Teletype α :=
  { t with pos := (t.pos / w + 1) * w, last := max t.last (t.pos / w + 1) }

/-- To the beginning of the line. -/
def home (t : Teletype α) : Teletype α := { t with pos := t.pos / w * w }

/-- Back by a cell, but not before the line `top`. -/
def back (top : Nat) (t : Teletype α) : Teletype α := if top * w < t.pos then { t with pos := t.pos - 1 } else t

/-- The first of the last `h` lines. -/
def top (h : Nat) (t : Teletype α) : Nat := t.last + 1 - h

/-- Line ends feed, all else is printed. -/
def types (ends : α → Bool) (t : Teletype α) (text : List α) : Teletype α :=
  text.foldl (fun t x => if ends x then t.feed w else t.put w x) t

end Teletype

/-- A grid whose rows have moved up, with blanks in the last one. -/
def scrolled {α : Type} (h : Nat) (blank : α) (grid : Nat → Nat → α) : Nat → Nat → α :=
  fun row col => if row + 1 < h then grid (row + 1) col else blank

/-- The grid is a window on the end of the paper, with the cursor where the head is. -/
structure Views {α : Type} (blank : α) (h w : Nat) (t : Teletype α) (grid : Nat → Nat → α)
    (row col : Nat) : Prop where
  cells : ∀ r < h, ∀ c < w, grid r c = t.paper ((t.top h + r) * w + c)
  pos : t.pos = (t.top h + row) * w + col
  rowLt : row < h
  colLt : col < w
  reached : t.top h + row ≤ t.last
  below : ∀ p, (t.last + 1) * w ≤ p → t.paper p = blank

section Window

variable {α : Type} {blank : α} {h w : Nat} {t : Teletype α} {grid : Nat → Nat → α} {row col : Nat}

theorem Views.fresh (hh : 0 < h) (hw : 0 < w) : Views blank h w (.fresh blank) (fun _ _ => blank) 0 0 where
  cells _ _ _ _ := rfl
  pos := by
    show 0 = (0 + 1 - h + 0) * w + 0
    rw [Nat.zero_add, Nat.sub_eq_zero_of_le hh, Nat.zero_add, Nat.zero_mul]
  rowLt := hh
  colLt := hw
  reached := by
    show 0 + 1 - h + 0 ≤ 0
    omega
  below _ _ := rfl

theorem line_of {a c : Nat} (hc : c < w) : (a * w + c) / w = a := by
  rw [Nat.add_comm, Nat.add_mul_div_right _ _ (Nat.zero_lt_of_lt hc), Nat.div_eq_of_lt hc, Nat.zero_add]

theorem column_of {a c : Nat} (hc : c < w) : (a * w + c) % w = c := by
  rw [Nat.mul_add_mod', Nat.mod_eq_of_lt hc]

theorem Views.line (hs : Views blank h w t grid row col) : t.pos / w = t.top h + row := by
  rw [hs.pos, line_of hs.colLt]

theorem Views.column (hs : Views blank h w t grid row col) : t.pos % w = col := by
  rw [hs.pos, column_of hs.colLt]

/-- The cursor is in the last line of the screen only if it is in the last line. -/
theorem Views.bottom (hs : Views blank h w t grid row col) (hrow : row + 1 = h) : t.top h + h = t.last + 1 := by
  have hreached := hs.reached
  unfold Teletype.top at hreached ⊢
  omega

/-- A cell of the screen is printed. -/
theorem Views.mark {grid' : Nat → Nat → α} {x : α} (hs : Views blank h w t grid row col)
    (hself : grid' row col = x) (hother : ∀ r c, ¬(r = row ∧ c = col) → grid' r c = grid r c) :
    Views blank h w (t.mark x) grid' row col where
  cells := by
    intro r hr c hc
    show grid' r c = Function.update t.paper t.pos x ((t.top h + r) * w + c)
    by_cases hsame : r = row ∧ c = col
    · obtain ⟨rfl, rfl⟩ := hsame
      rw [hself, hs.pos, Function.update_self]
    · rw [hother r c hsame, Function.update_of_ne, hs.cells r hr c hc]
      intro heq
      rw [hs.pos] at heq
      have hline := congrArg (· / w) heq
      have hcolumn := congrArg (· % w) heq
      rw [line_of hc, line_of hs.colLt] at hline
      rw [column_of hc, column_of hs.colLt] at hcolumn
      exact hsame ⟨Nat.add_left_cancel hline, hcolumn⟩
  pos := hs.pos
  rowLt := hs.rowLt
  colLt := hs.colLt
  reached := hs.reached
  below := by
    intro p hp
    have hpos : t.pos / w ≤ t.last := by
      rw [hs.line]
      exact hs.reached
    have hlt : t.pos < p := Nat.lt_of_lt_of_le ((Nat.div_lt_iff_lt_mul (Nat.zero_lt_of_lt hs.colLt)).mp
      (Nat.lt_succ_of_le hpos)) hp
    exact (Function.update_of_ne (Nat.ne_of_gt hlt) ..).trans (hs.below p hp)

/-- The cursor moves within the line, and the screen stays as it is. -/
theorem Views.step (hs : Views blank h w t grid row col) (hcol : col + 1 < w) :
    Views blank h w (t.step w) grid row (col + 1) := by
  have hline : (t.pos + 1) / w = t.top h + row := by
    rw [hs.pos, Nat.add_assoc, line_of hcol]
  have hlast : (t.step w).last = t.last := by
    show max t.last ((t.pos + 1) / w) = t.last
    rw [hline]
    exact Nat.max_eq_left hs.reached
  have htop : (t.step w).top h = t.top h := congrArg (· + 1 - h) hlast
  refine ⟨?_, ?_, hs.rowLt, hcol, ?_, ?_⟩
  · rw [htop]
    exact hs.cells
  · rw [htop]
    exact congrArg (· + 1) hs.pos
  · rw [htop, hlast]
    exact hs.reached
  · rw [hlast]
    exact hs.below

/-- Behind the last cell of a line comes the next line. -/
theorem Views.step_end (hs : Views blank h w t grid row col) (hcol : col + 1 = w) : t.step w = t.feed w := by
  have hnext : t.pos + 1 = (t.pos / w + 1) * w := by
    rw [hs.line, hs.pos, Nat.add_assoc, hcol, Nat.add_mul _ 1, Nat.one_mul]
  unfold Teletype.step Teletype.feed
  rw [hnext, Nat.mul_div_cancel _ (Nat.zero_lt_of_lt hs.colLt)]

/-- A line end within the screen. -/
theorem Views.feed_inside (hs : Views blank h w t grid row col) (hrow : row + 1 < h) :
    Views blank h w (t.feed w) grid (row + 1) 0 := by
  have hreached := hs.reached
  have hline : t.pos / w + 1 = t.top h + (row + 1) := by rw [hs.line, Nat.add_assoc]
  have hlast : (t.feed w).last = max t.last (t.top h + (row + 1)) := congrArg (max t.last) hline
  have htop : (t.feed w).top h = t.top h := by
    show (t.feed w).last + 1 - h = t.last + 1 - h
    rw [hlast]
    unfold Teletype.top at hreached ⊢
    omega
  refine ⟨?_, ?_, hrow, Nat.zero_lt_of_lt hs.colLt, ?_, ?_⟩
  · rw [htop]
    exact hs.cells
  · rw [htop]
    exact congrArg (· * w) hline
  · rw [htop, hlast]
    exact Nat.le_max_right ..
  · intro p hp
    rw [hlast] at hp
    exact hs.below p (Nat.le_trans (Nat.mul_le_mul_right w (Nat.succ_le_succ (Nat.le_max_left ..))) hp)

/-- A line end in the last line of the screen: what is on it moves up. -/
theorem Views.feed_scrolled (hs : Views blank h w t grid row col) (hrow : row + 1 = h) :
    Views blank h w (t.feed w) (scrolled h blank grid) row 0 := by
  have hbottom := hs.bottom hrow
  have hline : t.pos / w + 1 = t.last + 1 := by rw [hs.line, Nat.add_assoc, hrow, hbottom]
  have hlast : (t.feed w).last = t.last + 1 := by
    show max t.last (t.pos / w + 1) = t.last + 1
    rw [hline]
    exact Nat.max_eq_right (Nat.le_succ _)
  have htop : (t.feed w).top h = t.top h + 1 := by
    show (t.feed w).last + 1 - h = t.top h + 1
    rw [hlast]
    omega
  refine ⟨?_, ?_, hs.rowLt, Nat.zero_lt_of_lt hs.colLt, ?_, ?_⟩
  · intro r hr c hc
    rw [htop]
    unfold scrolled
    by_cases hlow : r + 1 < h
    · rw [if_pos hlow, hs.cells (r + 1) hlow c hc, Nat.add_assoc, Nat.add_comm 1 r]
      rfl
    · -- the line is new
      rw [if_neg hlow]
      refine (hs.below _ ?_).symm
      have hnew : t.top h + 1 + r = t.last + 1 := by omega
      rw [hnew]
      exact Nat.le_add_right ..
  · rw [htop]
    show (t.pos / w + 1) * w = (t.top h + 1 + row) * w + 0
    rw [hline, ← hbottom, Nat.add_zero]
    exact congrArg (· * w) (by omega)
  · rw [htop, hlast]
    omega
  · intro p hp
    rw [hlast] at hp
    exact hs.below p (Nat.le_trans (Nat.mul_le_mul_right w (Nat.le_succ _)) hp)

theorem Views.home (hs : Views blank h w t grid row col) : Views blank h w (t.home w) grid row 0 :=
  { hs with
    pos := congrArg (· * w) hs.line
    colLt := Nat.zero_lt_of_lt hs.colLt }

theorem Views.back (hs : Views blank h w t grid row col) (hcol : 0 < col) :
    Views blank h w (t.back w (t.top h)) grid row (col - 1) := by
  have hpos : t.top h * w < t.pos := by
    have hle : t.top h * w ≤ (t.top h + row) * w := Nat.mul_le_mul_right w (Nat.le_add_right ..)
    have heq := hs.pos
    omega
  rw [Teletype.back, if_pos hpos]
  have heq : t.pos - 1 = (t.top h + row) * w + (col - 1) := by
    rw [hs.pos, Nat.add_sub_assoc hcol]
  exact { hs with pos := heq, colLt := Nat.lt_of_le_of_lt (Nat.sub_le ..) hs.colLt }

/-- Back over the end of a line. -/
theorem Views.back_line (hs : Views blank h w t grid row 0) (hrow : 0 < row) :
    Views blank h w (t.back w (t.top h)) grid (row - 1) (w - 1) := by
  have hw := hs.colLt
  have hsplit : (t.top h + row) * w = (t.top h + (row - 1)) * w + w := by
    have hrows : t.top h + row = t.top h + (row - 1) + 1 := by omega
    rw [hrows, Nat.add_mul _ 1, Nat.one_mul]
  have hle : t.top h * w ≤ (t.top h + (row - 1)) * w := Nat.mul_le_mul_right w (Nat.le_add_right ..)
  have heq := hs.pos
  have hreached := hs.reached
  have hlt := hs.rowLt
  rw [Teletype.back, if_pos (by omega)]
  refine { hs with pos := ?_, colLt := by omega, rowLt := by omega, reached := ?_ }
  · show t.pos - 1 = (t.top h + (row - 1)) * w + (w - 1)
    omega
  · show t.top h + (row - 1) ≤ t.last
    omega

/-- In the first cell of the screen the cursor stays where it is. -/
theorem Views.back_stays (hs : Views blank h w t grid 0 0) : t.back w (t.top h) = t := by
  rw [Teletype.back, if_neg]
  rw [hs.pos]
  exact Nat.lt_irrefl _

end Window

/-! ## Rows -/

/-- A line of text in rows of `w` cells; behind a full row there is another one, be it
empty. -/
def chunk {α : Type} (w : Nat) (line : List α) : List (List α) :=
  (List.range (line.length / w + 1)).map fun k => (line.drop (k * w)).take w

/-- The text in rows. -/
def rows {α : Type} (w : Nat) (ends : α → Bool) (text : List α) : List (List α) :=
  (text.splitOnP ends).flatMap (chunk w)

/-- A cell of the rows; there is nothing behind the end of a row. -/
def cellAt {α : Type} (blank : α) (rs : List (List α)) (i j : Nat) : α := (((rs[i]?).getD [])[j]?).getD blank

section Rows

variable {α : Type} {ends : α → Bool} {w : Nat} {line text : List α} {x blank : α}

theorem chunk_nil (w : Nat) : chunk w ([] : List α) = [[]] := by
  rw [chunk, List.length_nil, Nat.zero_div, Nat.zero_add, List.range_one, List.map_singleton, List.drop_nil, List.take_nil]

/-- The rows of a line that are full, and what is in the one behind them. -/
theorem chunk_eq (hw : 0 < w) (line : List α) : chunk w line =
    ((List.range (line.length / w)).map fun k => (line.drop (k * w)).take w) ++
      [line.drop (line.length / w * w)] := by
  have hrest : (line.drop (line.length / w * w)).length ≤ w := by
    rw [List.length_drop, Nat.mul_comm, ← Nat.mod_eq_sub]
    exact Nat.le_of_lt (Nat.mod_lt _ hw)
  rw [chunk, List.range_succ, List.map_append, List.map_singleton, List.take_of_length_le hrest]

/-- The full rows stay as they are when the line gets longer. -/
theorem full_snoc (line : List α) (x : α) :
    ((List.range (line.length / w)).map fun k => ((line ++ [x]).drop (k * w)).take w) =
      (List.range (line.length / w)).map fun k => (line.drop (k * w)).take w := by
  refine List.map_congr_left fun k hk => ?_
  have hend : (k + 1) * w ≤ line.length :=
    Nat.le_trans (Nat.mul_le_mul_right w (List.mem_range.mp hk)) (Nat.div_mul_le_self ..)
  rw [Nat.add_mul, Nat.one_mul] at hend
  rw [List.drop_append_of_le_length (by omega), List.take_append_of_le_length]
  rw [List.length_drop]
  omega

/-- One more cell in a line: it goes to the last row, and if that is full, a new one
begins. -/
theorem chunk_snoc (hw : 0 < w) (line : List α) : ∃ full row, chunk w line = full ++ [row] ∧ row.length < w ∧
    ∀ x, chunk w (line ++ [x]) = if row.length + 1 < w then full ++ [row ++ [x]] else full ++ [row ++ [x]] ++ [[]] := by
  have hmod := Nat.mod_lt line.length hw
  have hrow : (line.drop (line.length / w * w)).length = line.length % w := by
    rw [List.length_drop, Nat.mul_comm, ← Nat.mod_eq_sub]
  have hsplit : line.length + 1 = line.length / w * w + (line.length % w + 1) := by
    rw [← Nat.add_assoc, Nat.mul_comm, Nat.div_add_mod]
  refine ⟨_, _, chunk_eq hw line, by rwa [hrow], fun x => ?_⟩
  have hdrop : (line ++ [x]).drop (line.length / w * w) = line.drop (line.length / w * w) ++ [x] :=
    List.drop_append_of_le_length (Nat.div_mul_le_self ..)
  rw [chunk_eq hw, hrow, List.length_append, List.length_singleton]
  by_cases hroom : line.length % w + 1 < w
  · have hdiv : (line.length + 1) / w = line.length / w := by rw [hsplit, line_of hroom]
    rw [if_pos hroom, hdiv, full_snoc, hdrop]
  · have hfull : line.length + 1 = (line.length / w + 1) * w := by
      rw [Nat.add_mul, Nat.one_mul]
      omega
    have hdiv : (line.length + 1) / w = line.length / w + 1 := by rw [hfull, Nat.mul_div_cancel _ hw]
    have htake : (line.drop (line.length / w * w) ++ [x]).length ≤ w := by
      rw [List.length_append, hrow]
      exact hmod
    have hnone : (line ++ [x]).drop ((line.length / w + 1) * w) = [] := by
      rw [← hfull]
      exact List.drop_eq_nil_of_le (Nat.le_of_eq List.length_append)
    rw [if_neg hroom, hdiv, hnone, List.range_succ, List.map_append, full_snoc, List.map_singleton, hdrop,
      List.take_of_length_le htake]

theorem splitOnP_snoc (text : List α) : ∃ before line, text.splitOnP ends = before ++ [line] ∧
    ∀ x, ends x = false → (text ++ [x]).splitOnP ends = before ++ [line ++ [x]] := by
  induction text with
  | nil =>
      refine ⟨[], [], rfl, fun x hx => ?_⟩
      rw [List.nil_append, List.splitOnP_cons_eq_if_modifyHead, hx]
      rfl
  | cons y text ih =>
      obtain ⟨before, line, heq, hsnoc⟩ := ih
      rw [List.splitOnP_cons_eq_if_modifyHead, heq]
      cases hy : ends y with
      | true =>
          refine ⟨[] :: before, line, rfl, fun x hx => ?_⟩
          rw [List.cons_append, List.splitOnP_cons_eq_if_modifyHead, hsnoc x hx, hy]
          rfl
      | false =>
          cases before with
          | nil =>
              refine ⟨[], y :: line, rfl, fun x hx => ?_⟩
              rw [List.cons_append, List.splitOnP_cons_eq_if_modifyHead, hsnoc x hx, hy]
              rfl
          | cons first before =>
              refine ⟨(y :: first) :: before, line, rfl, fun x hx => ?_⟩
              rw [List.cons_append, List.splitOnP_cons_eq_if_modifyHead, hsnoc x hx, hy]
              rfl

theorem rows_ends (hx : ends x = true) : rows w ends (text ++ [x]) = rows w ends text ++ [[]] := by
  unfold rows
  rw [List.splitOnP_append_cons text [] hx, List.flatMap_append, List.splitOnP_nil, List.flatMap_singleton, chunk_nil]

/-- A text is in rows, and one more cell goes to the last one. -/
theorem rows_snoc (hw : 0 < w) (text : List α) : ∃ full row, rows w ends text = full ++ [row] ∧ row.length < w ∧
    ∀ x, ends x = false →
      rows w ends (text ++ [x]) = if row.length + 1 < w then full ++ [row ++ [x]] else full ++ [row ++ [x]] ++ [[]] := by
  obtain ⟨before, line, hsplit, hnext⟩ := @splitOnP_snoc α ends text
  obtain ⟨full, row, hchunk, hroom, hlonger⟩ := chunk_snoc hw line
  refine ⟨before.flatMap (chunk w) ++ full, row, ?_, hroom, fun x hx => ?_⟩
  · rw [rows, hsplit, List.flatMap_append, List.flatMap_singleton, hchunk, List.append_assoc]
  · rw [rows, hnext x hx, List.flatMap_append, List.flatMap_singleton, hlonger]
    split_ifs
    · rw [List.append_assoc]
    · rw [List.append_assoc, List.append_assoc, List.append_assoc]

theorem cellAt_put (rs : List (List α)) (r : List α) (x : α) (i j : Nat) :
    cellAt blank (rs ++ [r ++ [x]]) i j =
      if i = rs.length ∧ j = r.length then x else cellAt blank (rs ++ [r]) i j := by
  unfold cellAt
  rcases Nat.lt_trichotomy i rs.length with hi | rfl | hi
  · rw [if_neg (by omega), List.getElem?_append_left hi, List.getElem?_append_left hi]
  · rw [List.getElem?_concat_length, List.getElem?_concat_length]
    show ((r ++ [x])[j]?).getD blank = _
    rcases Nat.lt_trichotomy j r.length with hj | rfl | hj
    · rw [if_neg (by omega), List.getElem?_append_left hj]
      rfl
    · rw [List.getElem?_concat_length, if_pos ⟨rfl, rfl⟩]
      rfl
    · rw [if_neg (by omega), List.getElem?_eq_none (by rw [List.length_append]; exact hj)]
      show blank = (r[j]?).getD blank
      rw [List.getElem?_eq_none (Nat.le_of_lt hj)]
      rfl
  · have hout (row : List α) : (rs ++ [row])[i]? = none := by
      rw [List.getElem?_eq_none]
      rwa [List.length_append]
    rw [if_neg (by omega), hout, hout]

theorem cellAt_drop (rs : List (List α)) (n i j : Nat) : cellAt blank (rs.drop n) i j = cellAt blank rs (n + i) j := by
  unfold cellAt
  rw [List.getElem?_drop]

theorem cellAt_feed (rs : List (List α)) (i j : Nat) : cellAt blank (rs ++ [[]]) i j = cellAt blank rs i j := by
  unfold cellAt
  rcases Nat.lt_trichotomy i rs.length with hi | rfl | hi
  · rw [List.getElem?_append_left hi]
  · rw [List.getElem?_concat_length, List.getElem?_eq_none (Nat.le_refl _)]
    rfl
  · have hout : (rs ++ [[]])[i]? = none := by
      rw [List.getElem?_eq_none]
      rwa [List.length_append]
    rw [hout, List.getElem?_eq_none (Nat.le_of_lt hi)]

end Rows

/-- The rows are on the paper, and the head is behind the last cell. -/
structure Holds {α : Type} (blank : α) (w : Nat) (t : Teletype α) (full : List (List α)) (row : List α) : Prop where
  pos : t.pos = full.length * w + row.length
  last : t.last = full.length
  room : row.length < w
  cells : ∀ i, ∀ j < w, t.paper (i * w + j) = cellAt blank (full ++ [row]) i j

section Text

variable {α : Type} {blank : α} {w : Nat} {t : Teletype α} {full : List (List α)} {row : List α}

theorem Holds.fresh (hw : 0 < w) : Holds blank w (.fresh blank) [] [] where
  pos := (Nat.zero_mul w).symm
  last := rfl
  room := hw
  cells i j _ := (cellAt_feed [] i j).symm

theorem Holds.cells_mark (h : Holds blank w t full row) (x : α) (i : Nat) {j : Nat} (hj : j < w) :
    (t.mark x).paper (i * w + j) = cellAt blank (full ++ [row ++ [x]]) i j := by
  show Function.update t.paper t.pos x (i * w + j) = _
  rw [cellAt_put]
  by_cases hsame : i = full.length ∧ j = row.length
  · obtain ⟨rfl, rfl⟩ := hsame
    rw [if_pos ⟨rfl, rfl⟩, h.pos, Function.update_self]
  · rw [if_neg hsame, Function.update_of_ne, h.cells i j hj]
    intro heq
    rw [h.pos] at heq
    have hline := congrArg (· / w) heq
    have hcolumn := congrArg (· % w) heq
    rw [line_of hj, line_of h.room] at hline
    rw [column_of hj, column_of h.room] at hcolumn
    exact hsame ⟨hline, hcolumn⟩

theorem Holds.put (h : Holds blank w t full row) (hroom : row.length + 1 < w) (x : α) :
    Holds blank w (t.put w x) full (row ++ [x]) where
  pos := by
    rw [List.length_append]
    exact congrArg (· + 1) h.pos
  last := by
    show max t.last ((t.pos + 1) / w) = full.length
    rw [h.pos, Nat.add_assoc, line_of hroom, h.last]
    exact Nat.max_self _
  room := by
    rw [List.length_append]
    exact hroom
  cells i _ hj := h.cells_mark x i hj

theorem Holds.put_end (h : Holds blank w t full row) (hroom : row.length + 1 = w) (x : α) :
    Holds blank w (t.put w x) (full ++ [row ++ [x]]) [] := by
  have hw := Nat.zero_lt_of_lt h.room
  have hnext : t.pos + 1 = (full.length + 1) * w := by
    rw [h.pos, Nat.add_assoc, hroom, Nat.add_mul _ 1, Nat.one_mul]
  refine ⟨?_, ?_, hw, fun i j hj => ?_⟩
  · rw [List.length_append]
    exact hnext
  · show max t.last ((t.pos + 1) / w) = _
    rw [hnext, Nat.mul_div_cancel _ hw, h.last, List.length_append]
    exact Nat.max_eq_right (Nat.le_succ _)
  · rw [cellAt_feed]
    exact h.cells_mark x i hj

theorem Holds.feed (h : Holds blank w t full row) : Holds blank w (t.feed w) (full ++ [row]) [] := by
  have hline : t.pos / w = full.length := by rw [h.pos, line_of h.room]
  refine ⟨?_, ?_, Nat.zero_lt_of_lt h.room, fun i j hj => ?_⟩
  · show (t.pos / w + 1) * w = _
    rw [hline, List.length_append]
    rfl
  · show max t.last (t.pos / w + 1) = _
    rw [hline, h.last, List.length_append]
    exact Nat.max_eq_right (Nat.le_succ _)
  · rw [cellAt_feed]
    exact h.cells i j hj

/-- A text typed on fresh paper is on it in rows. -/
theorem Holds.text (hw : 0 < w) (ends : α → Bool) (text : List α) : ∃ full row,
    rows w ends text = full ++ [row] ∧ Holds blank w ((Teletype.fresh blank).types w ends text) full row := by
  induction text using List.reverseRec with
  | nil =>
      refine ⟨[], [], ?_, .fresh hw⟩
      rw [rows, List.splitOnP_nil, List.flatMap_singleton, chunk_nil]
      rfl
  | append_singleton text x ih =>
      obtain ⟨full, row, hrows, hholds⟩ := ih
      have htyped : (Teletype.fresh blank).types w ends (text ++ [x]) =
          if ends x then ((Teletype.fresh blank).types w ends text).feed w
          else ((Teletype.fresh blank).types w ends text).put w x := by
        rw [Teletype.types, List.foldl_append]
        rfl
      rw [htyped]
      cases hx : ends x with
      | true =>
          rw [rows_ends hx, hrows]
          exact ⟨full ++ [row], [], rfl, hholds.feed⟩
      | false =>
          obtain ⟨full', row', hrows', -, hsnoc⟩ := @rows_snoc α ends w hw text
          rw [hrows] at hrows'
          obtain ⟨rfl, hrow⟩ := List.append_inj' hrows' rfl
          obtain rfl := List.singleton_inj.mp hrow
          rw [hsnoc x hx]
          by_cases hroom : row.length + 1 < w
          · rw [if_pos hroom]
            exact ⟨full, row ++ [x], rfl, hholds.put hroom x⟩
          · rw [if_neg hroom]
            exact ⟨full ++ [row ++ [x]], [], rfl, hholds.put_end (Nat.le_antisymm hholds.room (Nat.not_lt.mp hroom)) x⟩

end Text

end LiteBSD.Lib
