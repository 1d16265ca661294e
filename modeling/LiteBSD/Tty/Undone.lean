/-
# `LiteBSD.Tty.Undone` — output that leaves the screen as it was

The two sequences of the alternate screen do nothing, so what is printed
between them has to put the screen back itself.  Whether a string of bytes
does that on every screen can be read off its bytes (`Harmless`):

  * no byte draws, wherever the cursor is: no character, no `J` and no `K`, a
    tab only in the last column, a newline only above the last row;
  * every motion of the cursor is taken back by an `ESC [ u`, with an
    `ESC [ s` in front of the first motion.

There is no other way.  A byte that draws leaves a cell in which ESC is no
longer, if ESC was in all of them (`Marked`), as `print_char` never puts an
ESC into a cell.  And every motion takes two positions to one (`Motion`), so
that no later motion can tell which of them to go back to.
-/
import LiteBSD.Tty.Alternate

namespace LiteBSD.Tty

/-- A row and a column. -/
abbrev Spot := Int × Int

def OnScreen (p : Spot) : Prop := (0 ≤ p.1 ∧ p.1 < 48) ∧ 0 ≤ p.2 ∧ p.2 < 128

instance (p : Spot) : Decidable (OnScreen p) := inferInstanceAs (Decidable (_ ∧ _))

/-! ## Motions -/

/-- A motion of the cursor: two positions go to one. -/
structure Motion where
  target : Spot → Spot
  merges : ∃ p₁ p₂, OnScreen p₁ ∧ OnScreen p₂ ∧ p₁ ≠ p₂ ∧ target p₁ = target p₂

namespace Motion

/-- `H`, `f` -/
def goto (row col : Int) : Motion where
  target _ := (min (max row 1) screenHeight - 1, min (max col 1) screenWidth - 1)
  merges := ⟨(0, 0), (0, 1), by decide, by decide, by decide, rfl⟩

/-- `A` -/
def up (n : Int) (h : 1 ≤ n) : Motion where
  target p := (max (p.1 - n) 0, p.2)
  merges := ⟨(0, 0), (1, 0), by decide, by decide, by decide, Prod.ext (by dsimp only; omega) rfl⟩

/-- `B` -/
def down (n : Int) (h : 1 ≤ n) : Motion where
  target p := (min (p.1 + n) (screenHeight - 1), p.2)
  merges := ⟨(46, 0), (47, 0), by decide, by decide, by decide,
    Prod.ext (by unfold screenHeight; dsimp only; omega) rfl⟩

/-- `C` -/
def right (n : Int) (h : 1 ≤ n) : Motion where
  target p := (p.1, min (p.2 + n) (screenWidth - 1))
  merges := ⟨(0, 126), (0, 127), by decide, by decide, by decide,
    Prod.ext rfl (by unfold screenWidth; dsimp only; omega)⟩

/-- `D` -/
def left (n : Int) (h : 1 ≤ n) : Motion where
  target p := (p.1, max (p.2 - n) 0)
  merges := ⟨(0, 0), (0, 1), by decide, by decide, by decide, Prod.ext rfl (by dsimp only; omega)⟩

/-- `'\b'` -/
def back : Motion where
  target p := if p.2 > 0 then (p.1, p.2 - 1) else if p.1 > 0 then (p.1 - 1, screenWidth - 1) else p
  merges := ⟨(0, 0), (0, 1), by decide, by decide, by decide, rfl⟩

/-- `'\r'` -/
def home : Motion where
  target p := (p.1, 0)
  merges := ⟨(0, 0), (0, 1), by decide, by decide, by decide, rfl⟩

/-- `'\n'` -/
def newline : Motion where
  target p := (p.1 + 1, 0)
  merges := ⟨(0, 0), (0, 1), by decide, by decide, by decide, rfl⟩

end Motion

/-- What a byte is to the cells and the cursor. -/
inductive Effect where
  | still
  | draw
  | tab
  | newline
  | move (m : Motion)
  | save
  | restore

/-- With the cursor at `p` cells are stored. -/
def Effect.draws (p : Spot) : Effect → Prop
  | .draw => True
  | .tab => p.2 < 127
  | .newline => p.1 = 47
  | .still | .move _ | .save | .restore => False

/-- The cursor afterwards, from `p` and with `q` saved, if nothing is drawn. -/
def Effect.cursor (p q : Spot) : Effect → Spot
  | .still | .draw | .tab | .save => p
  | .newline => Motion.newline.target p
  | .move m => m.target p
  | .restore => q

def Effect.saved (p q : Spot) : Effect → Spot
  | .save => p
  | .still | .draw | .tab | .newline | .move _ | .restore => q

/-- Whether the cursor is afterwards at a certain position for sure: it is if
`p` holds before, and what is saved is if `q` does. -/
def Effect.holds (p q : Bool) : Effect → Bool
  | .still | .draw | .tab | .save => p
  | .newline | .move _ => false
  | .restore => q

/-! ## Reading the bytes -/

/-- How much of a sequence has been read. -/
inductive Reader where
  | normal
  | escape
  | csi (params : Nat → Int) (nparams : Int) (priv : Bool)

/-- A parameter that is not given, or zero, is the default. -/
def param (params : Nat → Int) (nparams : Int) (idx : Nat) (dflt : Int) : Int :=
  if (idx : Int) > nparams then dflt else if params idx ≤ 0 then dflt else params idx

theorem param_pos {params : Nat → Int} {nparams : Int} {idx : Nat} : 1 ≤ param params nparams idx 1 := by
  unfold param
  split_ifs <;> omega

/-- The last byte of a sequence. -/
def finalEffect (params : Nat → Int) (nparams : Int) (priv : Bool) (final : UInt8) : Effect :=
  if final = 72 ∨ final = 102 then .move (.goto (param params nparams 0 1) (param params nparams 1 1))
  else if final = 65 then .move (.up (param params nparams 0 1) param_pos)
  else if final = 66 then .move (.down (param params nparams 0 1) param_pos)
  else if final = 67 then .move (.right (param params nparams 0 1) param_pos)
  else if final = 68 then .move (.left (param params nparams 0 1) param_pos)
  else if final = 74 ∨ final = 75 then .draw
  else if final = 115 then if priv then .still else .save
  else if final = 117 then if priv then .still else .restore
  else .still

namespace Reader

def effect (c : UInt8) : Reader → Effect
  | .normal =>
      if c = 27 ∨ c = 7 then .still
      else if c = 9 then .tab
      else if c = 8 then .move .back
      else if c = 13 then .move .home
      else if c = 10 then .newline
      else .draw
  | .escape => .still
  | .csi params nparams priv => if isLetter c then finalEffect params nparams priv c else .still

def next (c : UInt8) : Reader → Reader
  | .normal => if c = 27 then .escape else .normal
  | .escape => if c = 91 then .csi (fun _ => 0) 0 false else .normal
  | .csi params nparams priv =>
      if c = 63 ∧ nparams = 0 ∧ params 0 = 0 then .csi params nparams true
      else if 48 ≤ c ∧ c ≤ 57 then
        .csi (Function.update params nparams.toNat (min (params nparams.toNat * 10 + (c.toNat - 48)) 999)) nparams priv
      else if c = 59 then
        if nparams < 7 then .csi (Function.update params (nparams + 1).toNat 0) (nparams + 1) priv
        else .csi params nparams priv
      else .normal

end Reader

/-! ## Strings that leave the screen as it was -/

/-- Reading, and where the cursor and the saved position are. -/
structure Walk where
  reader : Reader
  cursor : Spot
  saved : Spot

namespace Walk

def draws (x : Walk) (c : UInt8) : Prop := (x.reader.effect c).draws x.cursor

/-- A byte that does not draw. -/
def next (x : Walk) (c : UInt8) : Walk where
  reader := x.reader.next c
  cursor := (x.reader.effect c).cursor x.cursor x.saved
  saved := (x.reader.effect c).saved x.cursor x.saved

def Quiet : Walk → List UInt8 → Prop
  | _, [] => True
  | x, c :: rest => ¬x.draws c ∧ (x.next c).Quiet rest

/-- Before the first byte. -/
def start (p q : Spot) : Walk := ⟨.normal, p, q⟩

end Walk

/-- Reading, and whether the cursor and the saved position are for certain
where the cursor was before the first byte. -/
structure Hold where
  reader : Reader
  cursor : Bool
  saved : Bool

namespace Hold

def next (h : Hold) (c : UInt8) : Hold where
  reader := h.reader.next c
  cursor := (h.reader.effect c).holds h.cursor h.saved
  saved := match h.reader.effect c with
    | .save => h.cursor
    | .still | .draw | .tab | .newline | .move _ | .restore => h.saved

def start : Hold := ⟨.normal, true, false⟩

end Hold

structure Harmless (bytes : List UInt8) : Prop where
  /-- Nothing is drawn, wherever the cursor is and whatever has been saved. -/
  quiet : ∀ p q, OnScreen p → OnScreen q → (Walk.start p q).Quiet bytes
  /-- The motions are taken back. -/
  kept : (bytes.foldl Hold.next .start).cursor = true

/-! ## What one byte does -/

section Bytes

variable {s : Statics} {c color : UInt8}

def cursorOf (s : Statics) : Spot := (s.charRaw, s.charColumn)

def readerOf (s : Statics) : Reader :=
  match s.ansiState with
  | .normal => .normal
  | .escape => .escape
  | .csi => .csi s.ansiParams s.ansiNparams s.ansiPrivate

def savedOf (s : Statics) : Spot := (s.ansiSavedRow, s.ansiSavedCol)

def walkOf (s : Statics) : Walk := ⟨readerOf s, cursorOf s, savedOf s⟩

/-- There is a cell without an ESC in it. -/
def Marked (s : Statics) : Prop := ∃ row < 48, ∃ col < 128, s.textGrid row col ≠ 27

/-- The effect of a byte. -/
structure Does (e : Effect) (s s' : Statics) : Prop where
  drawn : e.draws (cursorOf s) → Marked s'
  grids : ¬e.draws (cursorOf s) → s'.textGrid = s.textGrid ∧ s'.colorGrid = s.colorGrid
  spots : ¬e.draws (cursorOf s) → s'.ansiState = s.ansiState ∧
    cursorOf s' = e.cursor (cursorOf s) (savedOf s) ∧ savedOf s' = e.saved (cursorOf s) (savedOf s)

/-- A byte has been printed. -/
structure Printed (s : Statics) (c : UInt8) (s' : Statics) : Prop where
  drawn : (walkOf s).draws c → Marked s'
  grids : ¬(walkOf s).draws c → s'.textGrid = s.textGrid ∧ s'.colorGrid = s.colorGrid
  walk : ¬(walkOf s).draws c → walkOf s' = (walkOf s).next c

/-- Something is drawn. -/
theorem Does.of_marked {e : Effect} {s' : Statics} (hd : e.draws (cursorOf s)) (hm : Marked s') : Does e s s' where
  drawn _ := hm
  grids h := absurd hd h
  spots h := absurd hd h

/-- The cursor moves. -/
theorem Does.of_move {p : Spot} {m : Motion} (hp : p = m.target (cursorOf s)) :
    Does (.move m) s (moveTo s p.1 p.2) where
  drawn h := h.elim
  grids _ := ⟨rfl, rfl⟩
  spots _ := ⟨rfl, hp, rfl⟩

/-- Neither the screen nor the cursor changes. -/
theorem Does.of_still {s' : Statics} (htext : s'.textGrid = s.textGrid) (hcolor : s'.colorGrid = s.colorGrid)
    (hstate : s'.ansiState = s.ansiState) (hcursor : cursorOf s' = cursorOf s) (hsaved : savedOf s' = savedOf s) :
    Does .still s s' where
  drawn h := h.elim
  grids _ := ⟨htext, hcolor⟩
  spots _ := ⟨hstate, hcursor, hsaved⟩

/-- A cell that has been drawn on stays without an ESC. -/
theorem Printed.marked {s' : Statics} (h : Printed s c s') (hm : Marked s) : Marked s' := by
  by_cases hd : (walkOf s).draws c
  · exact h.drawn hd
  · obtain ⟨row, hrow, col, hcol, hne⟩ := hm
    exact ⟨row, hrow, col, hcol, (h.grids hd).1 ▸ hne⟩

theorem putCell_marked {row col : Int} {attr : UInt8} (hc : c ≠ 27) : (putCell s row col c attr).Ensures Marked := by
  unfold putCell
  split
  case isTrue hgrid =>
    obtain ⟨⟨hrow, hrow'⟩, hcol, hcol'⟩ := of_decide_eq_true hgrid
    unfold screenHeight at hrow'
    unfold screenWidth at hcol'
    refine .ret ⟨row.toNat, by omega, col.toNat, by omega, ?_⟩
    show setGrid s.textGrid row.toNat col.toNat c row.toNat col.toNat ≠ 27
    rw [setGrid, Function.update_self, Function.update_self]
    exact hc
  case isFalse => exact .undefined

theorem scrollScreen_marked : Marked (scrollScreen s) :=
  ⟨47, by decide, 0, by decide, (by decide : (32 : UInt8) ≠ 27)⟩

theorem nextLine_marked (hm : Marked s) : Marked (nextLine s) := by
  unfold nextLine
  dsimp only
  split
  · exact scrollScreen_marked
  · exact hm

theorem putChar_marked (hc : c ≠ 27) : (putChar s c color).Ensures Marked := by
  refine .bind (putCell_marked hc) fun s' hm => .ret ?_
  unfold advance
  dsimp only
  split
  · exact nextLine_marked hm
  · exact hm

theorem tabLoop_marked {fuel : Nat} {stop : Int} (h : s.charColumn < stop ∨ Marked s) :
    (tabLoop (fun s => putChar s 32 color) stop fuel s).Ensures Marked := by
  induction fuel generalizing s with
  | zero => exact fun s' hs' => by cases hs'
  | succ fuel ih =>
      unfold tabLoop
      split
      case isTrue => exact .bind (putChar_marked (by decide)) fun s' hm => ih (.inr hm)
      case isFalse hstop => exact .ret (h.resolve_left hstop)

/-- A rectangle from the cursor on, or from its row on, is not empty. -/
theorem vgaFill_marked {row0 col0 row1 : Int} {attr : UInt8} (hrow : 0 ≤ row0 ∧ row0 < 48)
    (hcol : 0 ≤ col0 ∧ col0 < 128) (hrow1 : row0 < row1) :
    (vgaFill s row0 col0 row1 screenWidth attr).Ensures Marked := by
  have hmem : (max row0 0, max col0 0) ∈
      cellsOf (max row0 0) (max col0 0) (min row1 screenHeight) (min screenWidth screenWidth) := by
    unfold screenHeight screenWidth
    refine List.mem_flatMap.mpr ⟨0, List.mem_range.mpr (by omega), ?_⟩
    refine List.mem_map.mpr ⟨0, List.mem_range.mpr (by omega), ?_⟩
    exact Prod.ext (Int.add_zero _) (Int.add_zero _)
  -- each store leaves a mark, and there is one
  have hfill : (vgaFill s row0 col0 row1 screenWidth attr).Ensures fun s' => ([] : List Spot) = [] → Marked s' := by
    refine .foldlM (fun rest s' => rest = [] → Marked s') (fun p rest s' _ => ?_) fun hnil => ?_
    · exact (putCell_marked (by decide)).mono fun _ hm _ => hm
    · rw [hnil] at hmem
      cases hmem
  exact hfill.mono fun _ hm => hm rfl

/-! ### Sequences -/

theorem ansiParam_eq {idx : Nat} (hidx : idx < 8) (dflt : Int) :
    ansiParam s idx dflt = .ret (param s.ansiParams s.ansiNparams idx dflt) := by
  unfold ansiParam param
  by_cases hgiven : (idx : Int) > s.ansiNparams
  · rw [if_pos (.inr hgiven), if_pos hgiven]
  · rw [if_neg (by omega), if_neg hgiven, paramAt, if_pos (by omega), Int.toNat_natCast]
    rfl

/-- `p0 ? p0 : 1` is the first parameter with another default. -/
theorem orOne_param {params : Nat → Int} {nparams : Int} :
    orOne (param params nparams 0 0) = param params nparams 0 1 := by
  unfold orOne param
  split_ifs <;> omega

theorem setAttrs_registers : (setAttrs s).Ensures fun s' => ∃ pen, s' = { s with pen := pen } := by
  refine .foldlM (fun _ s' => ∃ pen, s' = { s with pen := pen }) (fun i rest s' hs' => ?_) ⟨s.pen, rfl⟩
  obtain ⟨pen, rfl⟩ := hs'
  exact .after fun p => .ret ⟨setAttr pen p, rfl⟩

/-- The last byte, with the parser back in state 0.  No parameter is 1049. -/
theorem ansiCsi_does (h : InRange s) :
    (ansiCsi s c).Ensures (Does (finalEffect s.ansiParams s.ansiNparams s.ansiPrivate c) s) := by
  have hrow := h.row
  have hcol := h.col
  have hmode : param s.ansiParams s.ansiNparams 0 0 ≠ 1049 := by
    have hfirst := h.params 0 (by decide)
    unfold param
    split_ifs <;> omega
  have hzero : ansiParam s 0 0 = .ret (param s.ansiParams s.ansiNparams 0 0) := ansiParam_eq (by decide) 0
  have hrow0 : ansiParam s 0 1 = .ret (param s.ansiParams s.ansiNparams 0 1) := ansiParam_eq (by decide) 1
  have hcol1 : ansiParam s 1 1 = .ret (param s.ansiParams s.ansiNparams 1 1) := ansiParam_eq (by decide) 1
  unfold ansiCsi
  rw [hzero, Exec.ret_bind]
  unfold ansiFinal
  by_cases hgoto : c = 72 ∨ c = 102
  · rw [if_pos hgoto, hrow0, Exec.ret_bind, hcol1, Exec.ret_bind]
    unfold finalEffect
    rw [if_pos hgoto]
    exact .ret (.of_move rfl)
  rw [if_neg hgoto, orOne_param]
  unfold finalEffect
  rw [if_neg hgoto]
  by_cases hup : c = 65
  · rw [if_pos hup, if_pos hup]
    exact .ret (.of_move rfl)
  rw [if_neg hup, if_neg hup]
  by_cases hdown : c = 66
  · rw [if_pos hdown, if_pos hdown]
    exact .ret (.of_move rfl)
  rw [if_neg hdown, if_neg hdown]
  by_cases hright : c = 67
  · rw [if_pos hright, if_pos hright]
    exact .ret (.of_move rfl)
  rw [if_neg hright, if_neg hright]
  by_cases hleft : c = 68
  · rw [if_pos hleft, if_pos hleft]
    exact .ret (.of_move rfl)
  rw [if_neg hleft, if_neg hleft]
  by_cases hfill : c = 74 ∨ c = 75
  · rw [if_pos hfill]
    have hmark (x : Exec Statics) (hx : x.Ensures Marked) : x.Ensures (Does .draw s) :=
      hx.mono fun _ => .of_marked trivial
    refine hmark _ ?_
    obtain rfl | rfl := hfill
    · rw [if_pos rfl]
      split
      · exact vgaFill_marked (by decide) (by decide) (by decide)
      · exact vgaFill_marked hrow hcol hrow.2
    · rw [if_neg (by decide), if_pos rfl]
      split
      · exact vgaFill_marked hrow (by decide) (Int.lt_succ _)
      · exact vgaFill_marked hrow hcol (Int.lt_succ _)
  obtain ⟨hscreen, hline⟩ := not_or.mp hfill
  rw [if_neg hfill, if_neg hscreen, if_neg hline]
  by_cases hcolours : c = 109
  · subst hcolours
    rw [if_pos rfl, if_neg (show ¬(109 : UInt8) = 115 by decide), if_neg (show ¬(109 : UInt8) = 117 by decide)]
    split
    · exact .ret (.of_still rfl rfl rfl rfl rfl)
    · refine setAttrs_registers.mono fun s' hs' => ?_
      obtain ⟨pen, rfl⟩ := hs'
      exact .of_still rfl rfl rfl rfl rfl
  rw [if_neg hcolours]
  by_cases hsave : c = 115
  · rw [if_pos hsave, if_pos hsave]
    cases s.ansiPrivate with
    | true => exact .ret (.of_still rfl rfl rfl rfl rfl)
    | false => exact .ret ⟨nofun, fun _ => ⟨rfl, rfl⟩, fun _ => ⟨rfl, rfl, rfl⟩⟩
  rw [if_neg hsave, if_neg hsave]
  by_cases hrestore : c = 117
  · rw [if_pos hrestore, if_pos hrestore]
    cases s.ansiPrivate with
    | true => exact .ret (.of_still rfl rfl rfl rfl rfl)
    | false => exact .ret ⟨nofun, fun _ => ⟨rfl, rfl⟩, fun _ => ⟨rfl, rfl, rfl⟩⟩
  rw [if_neg hrestore, if_neg hrestore]
  have hnever {x : Exec Statics} : (if s.ansiPrivate ∧ param s.ansiParams s.ansiNparams 0 0 = 1049 then x
      else .ret s) = .ret s := if_neg fun h => hmode h.2
  rw [hnever, hnever, ite_self, ite_self]
  exact .ret (.of_still rfl rfl rfl rfl rfl)

/-! ### All bytes -/

theorem backspace_eq :
    backspace s = moveTo s (Motion.back.target (cursorOf s)).1 (Motion.back.target (cursorOf s)).2 := by
  unfold backspace Motion.back cursorOf
  dsimp only
  by_cases hcol : s.charColumn > 0
  · rw [if_pos hcol, if_pos hcol]
  rw [if_neg hcol, if_neg hcol]
  by_cases hrow : s.charRaw > 0
  · rw [if_pos hrow, if_pos hrow]
  rw [if_neg hrow, if_neg hrow]
  rfl

theorem nextLine_does (h : InRange s) : Does .newline s (nextLine s) := by
  have hrow := h.row
  by_cases hlast : s.charRaw + 1 ≥ screenHeight
  · have hscroll : nextLine s = scrollScreen (moveTo s (s.charRaw + 1) 0) := if_pos hlast
    unfold screenHeight at hlast
    have hdraws : s.charRaw = 47 := by omega
    rw [hscroll]
    exact .of_marked hdraws scrollScreen_marked
  · have hmove : nextLine s = moveTo s (s.charRaw + 1) 0 := if_neg hlast
    unfold screenHeight at hlast
    have hdraws : ¬s.charRaw = 47 := by omega
    rw [hmove]
    exact ⟨fun hd => absurd hd hdraws, fun _ => ⟨rfl, rfl⟩, fun _ => ⟨rfl, rfl, rfl⟩⟩

theorem plainByte_does (h : InRange s) (hc : c ≠ 27 ∧ c ≠ 7) :
    (plainByte (fun s => putChar s 32 color) s c color).Ensures (Does (Reader.normal.effect c) s) := by
  have hcol := h.col
  unfold plainByte Reader.effect
  rw [if_neg (not_or.mpr hc)]
  by_cases htab : c = 9
  · rw [if_pos htab, if_pos htab]
    by_cases hlast : s.charColumn < 127
    · have hstop : s.charColumn < nextStop s := by
        unfold nextStop screenWidth
        omega
      exact (tabLoop_marked (.inl hstop)).mono fun _ => .of_marked hlast
    · -- the stop is the last column, where the cursor is
      have hstop : ¬s.charColumn < nextStop s := by
        unfold nextStop screenWidth
        omega
      unfold tabLoop
      rw [if_neg hstop]
      exact .ret ⟨fun hd => absurd hd hlast, fun _ => ⟨rfl, rfl⟩, fun _ => ⟨rfl, rfl, rfl⟩⟩
  rw [if_neg htab, if_neg htab]
  by_cases hback : c = 8
  · rw [if_pos hback, if_pos hback, backspace_eq]
    exact .ret (.of_move rfl)
  rw [if_neg hback, if_neg hback]
  by_cases hhome : c = 13
  · rw [if_pos hhome, if_pos hhome]
    exact .ret (.of_move rfl)
  rw [if_neg hhome, if_neg hhome]
  by_cases hnewline : c = 10
  · rw [if_pos hnewline, if_pos hnewline]
    exact .ret (nextLine_does h)
  rw [if_neg hnewline, if_neg hnewline]
  exact (putChar_marked hc.1).mono fun _ => .of_marked trivial

/-- What a byte does while the reader is at `r`. -/
theorem Printed.of_effect {s' : Statics} {r : Reader} (hr : readerOf s = r)
    (hdrawn : (r.effect c).draws (cursorOf s) → Marked s')
    (hgrids : ¬(r.effect c).draws (cursorOf s) → s'.textGrid = s.textGrid ∧ s'.colorGrid = s.colorGrid)
    (hwalk : ¬(r.effect c).draws (cursorOf s) → readerOf s' = r.next c ∧
      cursorOf s' = (r.effect c).cursor (cursorOf s) (savedOf s) ∧
      savedOf s' = (r.effect c).saved (cursorOf s) (savedOf s)) : Printed s c s' := by
  subst hr
  refine ⟨hdrawn, hgrids, fun hd => ?_⟩
  obtain ⟨hreader, hcursor, hsaved⟩ := hwalk hd
  unfold walkOf Walk.next
  rw [hreader, hcursor, hsaved]

/-- A byte that only the reader takes. -/
theorem Printed.of_reader {s' : Statics} {r : Reader} (hr : readerOf s = r) (he : r.effect c = .still)
    (hgrids : s'.textGrid = s.textGrid ∧ s'.colorGrid = s.colorGrid) (hcursor : cursorOf s' = cursorOf s)
    (hsaved : savedOf s' = savedOf s) (hreader : readerOf s' = r.next c) : Printed s c s' := by
  refine .of_effect hr ?_ ?_ ?_
  · rw [he]
    exact False.elim
  · exact fun _ => hgrids
  · rw [he]
    exact fun _ => ⟨hreader, hcursor, hsaved⟩

theorem readerOf_normal (hn : s.ansiState = .normal) : readerOf s = .normal := by
  unfold readerOf
  rw [hn]

theorem walkOf_normal (hn : s.ansiState = .normal) : walkOf s = .start (cursorOf s) (savedOf s) := by
  unfold walkOf
  rw [readerOf_normal hn]
  rfl

theorem normalByte_printed (h : InRange s) (hn : s.ansiState = .normal) :
    (normalByte s c color).Ensures (Printed s c) := by
  have hr := readerOf_normal hn
  unfold normalByte
  by_cases hescape : c = 27
  · subst hescape
    exact .ret (.of_reader hr rfl ⟨rfl, rfl⟩ rfl rfl rfl)
  rw [if_neg hescape]
  have hnext : Reader.normal.next c = .normal := if_neg hescape
  by_cases hbell : c = 7
  · subst hbell
    exact .ret (.of_reader hr rfl ⟨rfl, rfl⟩ rfl rfl hr)
  rw [if_neg hbell]
  refine (plainByte_does h ⟨hescape, hbell⟩).mono fun s' hs' => .of_effect hr hs'.drawn hs'.grids fun hd => ?_
  obtain ⟨hstate, hspots⟩ := hs'.spots hd
  rw [hnext]
  exact ⟨readerOf_normal (hstate.trans hn), hspots⟩

theorem not_letter_digit (hc : 48 ≤ c ∧ c ≤ 57) : isLetter c = false := by
  have hlow := UInt8.le_iff_toNat_le.mp hc.1
  have hhigh := UInt8.le_iff_toNat_le.mp hc.2
  refine decide_eq_false ?_
  rintro (⟨hle, -⟩ | ⟨hle, -⟩)
  · exact absurd (UInt8.le_iff_toNat_le.mp hle) (by simp at hhigh ⊢; omega)
  · exact absurd (UInt8.le_iff_toNat_le.mp hle) (by simp at hhigh ⊢; omega)

/-- A byte in a sequence. -/
theorem csiByte_printed (h : InRange s) (hn : s.ansiState = .csi) : (csiByte s c).Ensures (Printed s c) := by
  have hnparams := h.nparams
  have hfirst : paramAt s 0 = .ret (s.ansiParams 0) := rfl
  have hcsi {s' : Statics} (hstate : s'.ansiState = .csi) :
      readerOf s' = .csi s'.ansiParams s'.ansiNparams s'.ansiPrivate := by
    unfold readerOf
    rw [hstate]
  have hr := hcsi hn
  -- a byte that does not end the sequence
  have hgoes {s' : Statics} {params : Nat → Int} {n : Int} {priv : Bool} (hc : isLetter c = false)
      (hs' : s' = withParams s params n priv)
      (hnext : .csi params n priv = (Reader.csi s.ansiParams s.ansiNparams s.ansiPrivate).next c) :
      Printed s c s' := by
    subst hs'
    refine .of_reader hr (if_neg (by rw [hc]; decide)) ⟨rfl, rfl⟩ rfl rfl ?_
    rw [← hnext]
    exact hcsi hn
  unfold csiByte
  rw [hfirst, Exec.ret_bind]
  by_cases hquestion : c = 63 ∧ s.ansiNparams = 0 ∧ s.ansiParams 0 = 0
  · rw [if_pos hquestion]
    exact .ret (hgoes (by rw [hquestion.1]; rfl) rfl (if_pos hquestion).symm)
  rw [if_neg hquestion]
  by_cases hdigit : 48 ≤ c ∧ c ≤ 57
  · have hlast : paramAt s s.ansiNparams = .ret (s.ansiParams s.ansiNparams.toNat) := if_pos (by omega)
    rw [if_pos hdigit, hlast, Exec.ret_bind, setParam, if_pos (by omega)]
    exact .ret (hgoes (not_letter_digit hdigit) rfl ((if_neg hquestion).trans (if_pos hdigit)).symm)
  rw [if_neg hdigit]
  by_cases hsemicolon : c = 59
  · have hletter : isLetter c = false := by rw [hsemicolon]; rfl
    have hnext : (Reader.csi s.ansiParams s.ansiNparams s.ansiPrivate).next c = if s.ansiNparams < 7
        then .csi (Function.update s.ansiParams (s.ansiNparams + 1).toNat 0) (s.ansiNparams + 1) s.ansiPrivate
        else .csi s.ansiParams s.ansiNparams s.ansiPrivate :=
      (if_neg hquestion).trans ((if_neg hdigit).trans (if_pos hsemicolon))
    rw [if_pos hsemicolon]
    by_cases hroom : s.ansiNparams < 7
    · rw [if_pos hroom, setParam, if_pos (by omega)]
      exact .ret (hgoes hletter rfl (hnext.trans (if_pos hroom)).symm)
    · rw [if_neg hroom]
      exact .ret (hgoes hletter rfl (hnext.trans (if_neg hroom)).symm)
  rw [if_neg hsemicolon]
  have hnext : (Reader.csi s.ansiParams s.ansiNparams s.ansiPrivate).next c = .normal :=
    (if_neg hquestion).trans ((if_neg hdigit).trans (if_neg hsemicolon))
  have hdone : InRange { s with ansiState := .normal } := { h with }
  split
  case isTrue hletter =>
    have heffect : (Reader.csi s.ansiParams s.ansiNparams s.ansiPrivate).effect c =
        finalEffect s.ansiParams s.ansiNparams s.ansiPrivate c := if_pos hletter
    refine (ansiCsi_does hdone).mono fun s' hs' => ?_
    refine .of_effect hr (heffect ▸ hs'.drawn) (heffect ▸ hs'.grids) fun hd => ?_
    obtain ⟨hstate, hspots⟩ := hs'.spots (heffect ▸ hd)
    exact ⟨hnext ▸ readerOf_normal hstate, heffect ▸ hspots⟩
  case isFalse hletter =>
    exact .ret (.of_reader hr (if_neg hletter) ⟨rfl, rfl⟩ rfl rfl hnext.symm)

theorem printChar_printed (h : InRange s) : (printChar s c color).Ensures (Printed s c) := by
  cases hn : s.ansiState with
  | normal =>
      rw [printChar_normal hn]
      exact normalByte_printed h hn
  | escape =>
      have hr : readerOf s = .escape := by
        unfold readerOf
        rw [hn]
      rw [printChar_escape hn]
      split
      case isTrue hopen => exact .ret (.of_reader hr rfl ⟨rfl, rfl⟩ rfl rfl (if_pos hopen).symm)
      case isFalse hopen => exact .ret (.of_reader hr rfl ⟨rfl, rfl⟩ rfl rfl (if_neg hopen).symm)
  | csi =>
      have hbyte : printChar s c color = csiByte s c := by
        unfold printChar printCharIn
        rw [hn]
      rw [hbyte]
      exact csiByte_printed h hn

end Bytes

/-! ## Runs -/

section Runs

variable {s : Statics} {bytes : List (UInt8 × UInt8)}

theorem printChar_step (h : InRange s) (b : UInt8 × UInt8) :
    (printChar s b.1 b.2).Returns fun s' => InRange s' ∧ Printed s b.1 s' := by
  obtain ⟨s', hs', hr, -⟩ := @printChar_fine _ s b.1 b.2 stable_true ⟨h, trivial⟩
  exact ⟨s', hs', hr, printChar_printed h s' hs'⟩

/-- A mark stays. -/
theorem printAll_marked (h : InRange s) (hm : Marked s) : (printAll s bytes).Returns Marked := by
  have hrun : (printAll s bytes).Returns fun s' => InRange s' ∧ Marked s' :=
    .foldlM (fun b _ s₁ h₁ => (printChar_step h₁.1 b).mono fun s₂ h₂ => ⟨h₂.1, h₂.2.marked h₁.2⟩) ⟨h, hm⟩
  exact hrun.mono fun _ h' => h'.2

/-- One byte that draws is enough for one. -/
theorem printAll_draws (h : InRange s) (hq : ¬(walkOf s).Quiet (bytes.map Prod.fst)) :
    (printAll s bytes).Returns Marked := by
  induction bytes generalizing s with
  | nil => exact absurd trivial hq
  | cons b rest ih =>
      refine .bind (printChar_step h b) fun s' hs' => ?_
      by_cases hd : (walkOf s).draws b.1
      · exact printAll_marked hs'.1 (hs'.2.drawn hd)
      · refine ih hs'.1 fun hrest => hq ⟨hd, ?_⟩
        rw [← hs'.2.walk hd]
        exact hrest

/-- Without such a byte the cells stay, and the cursor walks. -/
theorem printAll_quiet (h : InRange s) (hq : (walkOf s).Quiet (bytes.map Prod.fst)) :
    (printAll s bytes).Returns fun s' => s'.textGrid = s.textGrid ∧ s'.colorGrid = s.colorGrid ∧
      walkOf s' = (bytes.map Prod.fst).foldl Walk.next (walkOf s) := by
  induction bytes generalizing s with
  | nil => exact .ret ⟨rfl, rfl, rfl⟩
  | cons b rest ih =>
      refine .bind (printChar_step h b) fun s' hs' => ?_
      obtain ⟨htext, hcolor⟩ := hs'.2.grids hq.1
      have hwalk := hs'.2.walk hq.1
      refine (ih hs'.1 (hwalk ▸ hq.2)).mono fun s'' hs'' => ⟨hs''.1.trans htext, hs''.2.1.trans hcolor, ?_⟩
      rw [hs''.2.2, hwalk]
      rfl

end Runs

/-! ## Positions that are known -/

/-- What is known of a position that depends on where the cursor was and what
was saved: it is where the cursor was, or it does not tell two positions of
the cursor apart. -/
def Known (g : Spot → Spot → Spot) : Bool → Prop
  | true => ∀ p q, g p q = p
  | false => ∃ p₁ p₂, OnScreen p₁ ∧ OnScreen p₂ ∧ p₁ ≠ p₂ ∧ ∀ q, g p₁ q = g p₂ q

theorem Known.move {g : Spot → Spot → Spot} {b : Bool} (h : Known g b) (m : Motion) :
    Known (fun p q => m.target (g p q)) false := by
  cases b with
  | true =>
      obtain ⟨p₁, p₂, h₁, h₂, hne, hmerge⟩ := m.merges
      refine ⟨p₁, p₂, h₁, h₂, hne, fun q => ?_⟩
      show m.target (g p₁ q) = m.target (g p₂ q)
      rw [h p₁ q, h p₂ q]
      exact hmerge
  | false =>
      obtain ⟨p₁, p₂, h₁, h₂, hne, hsame⟩ := h
      exact ⟨p₁, p₂, h₁, h₂, hne, fun q => congrArg m.target (hsame q)⟩

theorem Known.iff {g : Spot → Spot → Spot} {b : Bool} (h : Known g b) :
    b = true ↔ ∀ p q, OnScreen p → OnScreen q → g p q = p := by
  cases b with
  | true => exact ⟨fun _ p q _ _ => h p q, fun _ => rfl⟩
  | false =>
      refine ⟨nofun, fun hall => ?_⟩
      obtain ⟨p₁, p₂, h₁, h₂, hne, hsame⟩ := h
      have hq : OnScreen (0, 0) := by decide
      exact absurd ((hall p₁ _ h₁ hq).symm.trans ((hsame _).trans (hall p₂ _ h₂ hq))) hne

/-- The walks from all positions, and what is known of them. -/
structure Traced (h : Hold) (f : Spot → Spot → Walk) : Prop where
  reader : ∀ p q, (f p q).reader = h.reader
  cursor : Known (fun p q => (f p q).cursor) h.cursor
  saved : Known (fun p q => (f p q).saved) h.saved

theorem traced_start : Traced .start Walk.start where
  reader _ _ := rfl
  cursor _ _ := rfl
  saved := ⟨(0, 0), (0, 1), by decide, by decide, by decide, fun _ => rfl⟩

theorem Traced.next {h : Hold} {f : Spot → Spot → Walk} (ht : Traced h f) (c : UInt8) :
    Traced (h.next c) fun p q => (f p q).next c := by
  have heffect (p q : Spot) : (f p q).reader.effect c = h.reader.effect c := by rw [ht.reader]
  refine ⟨fun p q => ?_, ?_, ?_⟩
  · unfold Walk.next Hold.next
    rw [ht.reader]
  · unfold Walk.next Hold.next
    simp only [heffect]
    cases h.reader.effect c with
    | still => exact ht.cursor
    | draw => exact ht.cursor
    | tab => exact ht.cursor
    | newline => exact ht.cursor.move .newline
    | move m => exact ht.cursor.move m
    | save => exact ht.cursor
    | restore => exact ht.saved
  · unfold Walk.next Hold.next
    simp only [heffect]
    cases h.reader.effect c with
    | save => exact ht.cursor
    | still => exact ht.saved
    | draw => exact ht.saved
    | tab => exact ht.saved
    | newline => exact ht.saved
    | move m => exact ht.saved
    | restore => exact ht.saved

theorem Traced.run {h : Hold} {f : Spot → Spot → Walk} (ht : Traced h f) (bytes : List UInt8) :
    Traced (bytes.foldl Hold.next h) fun p q => bytes.foldl Walk.next (f p q) := by
  induction bytes generalizing h f with
  | nil => exact ht
  | cons c rest ih => exact ih (ht.next c)

/-! ## The two sequences -/

/-- A screen with an ESC in every cell. -/
def escapes (p q : Spot) : Statics :=
  { moveTo (bootStatics (.vga fun _ => 0)) p.1 p.2 with
    textGrid := fun _ _ => 27
    ansiSavedRow := q.1
    ansiSavedCol := q.2 }

theorem inRange_escapes {p q : Spot} (hp : OnScreen p) (hq : OnScreen q) : InRange (escapes p q) :=
  { inRange_boot (.vga fun _ => 0) with row := hp.1, col := hp.2, savedRow := hq.1, savedCol := hq.2 }

theorem InRange.onScreen {s : Statics} (h : InRange s) : OnScreen (cursorOf s) ∧ OnScreen (savedOf s) :=
  ⟨⟨h.row, h.col⟩, h.savedRow, h.savedCol⟩

/-- Every screen is as it was after the bytes exactly if they are harmless. -/
theorem harmless_iff {w : List (UInt8 × UInt8)} :
    (∀ s, InRange s → s.ansiState = .normal → s.altActive = false → (printAll s w).Returns (SameScreen s)) ↔
      Harmless (w.map Prod.fst) := by
  have hknown := (traced_start.run (w.map Prod.fst)).cursor.iff
  constructor
  · intro hall
    have hquiet : ∀ p q, OnScreen p → OnScreen q → (Walk.start p q).Quiet (w.map Prod.fst) := by
      intro p q hp hq
      by_contra hdraws
      -- there are ESCs in all cells before, and not behind the byte that draws
      obtain ⟨s', hs', row, hrow, col, hcol, hne⟩ := printAll_draws (inRange_escapes hp hq) hdraws
      obtain ⟨s'', hs'', hsame, -⟩ := hall _ (inRange_escapes hp hq) rfl rfl
      cases hs'.symm.trans hs''
      exact hne (hsame row hrow col hcol).1
    refine ⟨hquiet, hknown.mpr fun p q hp hq => ?_⟩
    obtain ⟨s', hs', -, -, hwalk⟩ := printAll_quiet (inRange_escapes hp hq) (hquiet p q hp hq)
    obtain ⟨s'', hs'', -, hrow, hcol⟩ := hall _ (inRange_escapes hp hq) rfl rfl
    cases hs'.symm.trans hs''
    have hcursor : cursorOf s' = ((w.map Prod.fst).foldl Walk.next (.start p q)).cursor := congrArg Walk.cursor hwalk
    rw [← hcursor]
    exact Prod.ext hrow hcol
  · intro h s hs hn _
    have hstart := walkOf_normal hn
    obtain ⟨hp, hq⟩ := hs.onScreen
    refine (printAll_quiet hs (hstart ▸ h.quiet _ _ hp hq)).mono fun s' hs' => ?_
    obtain ⟨htext, hcolor, hwalk⟩ := hs'
    have hcursor : cursorOf s' = cursorOf s := by
      rw [← hknown.mp h.kept _ _ hp hq, ← hstart]
      exact congrArg Walk.cursor hwalk
    refine ⟨fun row _ col _ => ⟨?_, ?_⟩, congrArg Prod.fst hcursor, congrArg Prod.snd hcursor⟩
    · rw [htext]
    · rw [hcolor]

/-- A harmless string ends outside of a sequence if its reader does. -/
theorem Harmless.ends {w : List (UInt8 × UInt8)} (h : Harmless (w.map Prod.fst))
    (hend : ((w.map Prod.fst).foldl Hold.next .start).reader = .normal) {s : Statics} (hs : InRange s)
    (hn : s.ansiState = .normal) : (printAll s w).Returns fun s₁ => s₁.ansiState = .normal := by
  obtain ⟨hp, hq⟩ := hs.onScreen
  have hstart := walkOf_normal hn
  refine (printAll_quiet hs (hstart ▸ h.quiet _ _ hp hq)).mono fun s' hs' => ?_
  have hreader : readerOf s' = .normal := by
    rw [← hend, ← (traced_start.run (w.map Prod.fst)).reader (cursorOf s) (savedOf s), ← hstart]
    exact congrArg Walk.reader hs'.2.2
  unfold readerOf at hreader
  cases hstate : s'.ansiState with
  | normal => rfl
  | escape =>
      rw [hstate] at hreader
      cases hreader
  | csi =>
      rw [hstate] at hreader
      cases hreader

/-- For a string that ends outside of a sequence: printed between the two
sequences it leaves every screen as it was exactly if it draws nothing and
takes its motions back. -/
theorem alternate_screen_restores_iff {w : List (UInt8 × UInt8)} {color : UInt8}
    (hw : ∀ s, InRange s → s.ansiState = .normal → (printAll s w).Returns fun s₁ => s₁.ansiState = .normal) :
    (∀ s, InRange s → s.ansiState = .normal → s.altActive = false →
      (printAll s (mode1049 104 color ++ w ++ mode1049 108 color)).Returns (SameScreen s)) ↔
      Harmless (w.map Prod.fst) := by
  refine Iff.trans ?_ harmless_iff
  refine forall_congr' fun s => forall_congr' fun hs => forall_congr' fun hn => forall_congr' fun _ => ?_
  exact bracketed_iff hn (hw s hs hn)

/-- `ESC [ s`, `ESC [ 5 ; 9 H`, `ESC [ 3 1 m` and `ESC [ u`: the cursor goes away
and comes back, and the colour changes. -/
def excursion : List (UInt8 × UInt8) :=
  [27, 91, 115, 27, 91, 53, 59, 57, 72, 27, 91, 51, 49, 109, 27, 91, 117].map fun c => (c, 15)

theorem harmless_excursion : Harmless (excursion.map Prod.fst) where
  quiet _ _ _ _ := ⟨id, id, id, id, id, id, id, id, id, id, id, id, id, id, id, id, id, trivial⟩
  kept := rfl

/-- The cleared console, with this between the sequences. -/
theorem excursion_restored :
    (printAll (clear (bootStatics (.fb fun _ => 0))) (mode1049 104 15 ++ excursion ++ mode1049 108 15)).Returns
      (SameScreen (clear (bootStatics (.fb fun _ => 0)))) :=
  (alternate_screen_restores_iff fun _ hs hn => harmless_excursion.ends rfl hs hn).mpr harmless_excursion _
    (inRange_boot (.fb fun _ => 0)).clear rfl rfl

/-- A letter between the sequences, on the cleared console.  It ends in state 0
and does not touch the alternate screen; after the second sequence the cursor
is behind the letter. -/
theorem letter_not_restored :
    (clear (bootStatics (.fb fun _ => 0))).ansiState = .normal ∧
      (clear (bootStatics (.fb fun _ => 0))).altActive = false ∧
      (printAll (clear (bootStatics (.fb fun _ => 0))) [(97, 15)]).Returns (fun s₁ =>
        s₁.ansiState = .normal ∧ s₁.altActive = false) ∧
      ¬(printAll (clear (bootStatics (.fb fun _ => 0))) (mode1049 104 15 ++ [(97, 15)] ++ mode1049 108 15)).Returns
        (SameScreen (clear (bootStatics (.fb fun _ => 0)))) := by
  refine ⟨rfl, rfl, ⟨_, rfl, rfl, rfl⟩, ?_⟩
  rintro ⟨t', ht', hsame⟩
  obtain ⟨t, ht, hiff⟩ := @print_bracketed (clear (bootStatics (.fb fun _ => 0))) 15 [(97, 15)] _ rfl rfl rfl
  cases ht.symm.trans ht'
  exact absurd (hiff.mp hsame).2.2 (by decide)

end LiteBSD.Tty
