/-
# `LiteBSD.Tty.Echo` — the line that is being typed, on the screen

While a canonical `sys_read` edits a line in the caller's buffer, it prints what it
takes from the keyboard, erases with `"\b \b"`, and prints the line anew when `^L` has
cleared the screen.  The buffer and the screen are never compared.

`Echoes` says that they agree at the end of each round: the line is on the paper from
where the head was when the read began, and behind it the paper is as it was.  So the
line that the read returns is the one that is seen (`echo_shows_line`), as long as

  * no tab and no bell is typed: a tab is one byte of the line and up to eight cells, and
    a bell is none;
  * the line is so short that its beginning does not leave the screen, where a backspace
    ends.
-/
import LiteBSD.Files.Lines
import LiteBSD.Lib.Memory
import LiteBSD.Tty.Paper

namespace LiteBSD.Tty

open Lib Files

/-! ## What has been shown -/

def drawShown (s : Statics) : Shown → Exec Statics
  | .char c => printChar s c colorWhite
  | .clear => .ret (clear s)

/-- The screen after all that. -/
def drawAll (s : Statics) (out : List Shown) : Exec Statics := out.foldlM drawShown s

def typeShown (t : Teletype Cell) : Shown → Teletype Cell
  | .char c => typeByte t (c, colorWhite)
  | .clear => .fresh blankCell

/-- What is on the paper, and was not cleared. -/
def paperOf (out : List Shown) : Teletype Cell := out.foldl typeShown (.fresh blankCell)

/-- The characters, without their colours. -/
def textOf (t : Teletype Cell) (p : Nat) : UInt8 := (t.paper p).1

/-- Nothing has been printed behind the head. -/
structure AtEnd (t : Teletype Cell) : Prop where
  last : t.last ≤ t.pos / 128
  blank : ∀ p, t.pos ≤ p → textOf t p = 32

/-- The line is on the paper `t`, from where the head was on the paper `base`, and
else there is what was there; the whole line is on the screen. -/
structure ShowsLine (base t : Teletype Cell) (line : List UInt8) : Prop where
  text : textOf t = overwrite (textOf base) base.pos line
  inSight : t.top 48 * 128 ≤ base.pos

/-- Where a line begins that is typed after the output `before`, when `after` is all
the output: where the head was then, or in the first cell of a screen cleared since. -/
def baseOf (before after : List Shown) : Teletype Cell :=
  if .clear ∈ after.drop before.length then .fresh blankCell else paperOf before

/-- What a read that has returned `r` leaves on the screen: the line that is in the
buffer, from where it began. -/
def LineSeen (before after : List Shown) (t : Teletype Cell) (buf : Nat → UInt8) (r : Int) : Prop :=
  ∃ line, ShowsLine (baseOf before after) t line ∧
    (lineOf buf r.toNat = line ∧ t.pos = (baseOf before after).pos + line.length ∨
      lineOf buf r.toNat = line ++ [10] ∧ t.pos = (((baseOf before after).pos + line.length) / 128 + 1) * 128)

section Drawing

variable {s : Statics} {t : Teletype Cell} {out : List Shown}

theorem OnPaper.draw (h : OnPaper s t) (hout : Shown.char 27 ∉ out) :
    (drawAll s out).Returns fun s' => OnPaper s' (out.foldl typeShown t) := by
  induction out generalizing s t with
  | nil => exact .ret h
  | cons x out ih =>
      obtain ⟨hx, hrest⟩ := not_or.mp (mt List.mem_cons.mpr hout)
      refine .bind ?_ fun s' hs' => ih hs' hrest
      cases x with
      | char c => exact h.byte (c, colorWhite) fun hc => hx (congrArg Shown.char hc.symm)
      | clear => exact .ret (onPaper_clear h.normal)

theorem paperOf_concat (out : List Shown) (x : Shown) : paperOf (out ++ [x]) = typeShown (paperOf out) x := by
  rw [paperOf, List.foldl_append]
  rfl

end Drawing

/-! ## The line on the paper -/

/-- The line is on the paper from `base.pos` on, the head behind it, and no more than
`far` cells have been used. -/
structure Written (far : Nat) (base t : Teletype Cell) (line : List UInt8) : Prop where
  text : textOf t = overwrite (textOf base) base.pos line
  pos : t.pos = base.pos + line.length
  last : t.last ≤ (base.pos + far) / 128
  room : line.length ≤ far

/-- A character that takes up one cell. -/
def Ordinary (c : UInt8) : Prop := Plain c ∧ c ≠ 10

section Paper

variable {far : Nat} {base t : Teletype Cell} {line : List UInt8} {c : UInt8}

theorem overwrite_single {β : Type} (mem : Nat → β) (a : Nat) (x : β) :
    overwrite mem a [x] = Function.update mem a x := by
  funext i
  by_cases hi : i = a
  · subst hi
    rw [Function.update_self, overwrite_inside (Nat.le_refl i)]
    rw [Nat.sub_self]
    rfl
  · rw [Function.update_of_ne hi, overwrite_apart]
    rw [List.length_singleton]
    omega

theorem typeByte_ordinary (hc : Ordinary c) (t : Teletype Cell) (color : UInt8) :
    typeByte t (c, color) = t.put 128 (c, color) := by
  obtain ⟨⟨hbell, hback, htab, hhome, -⟩, hfeed⟩ := hc
  unfold typeByte
  rw [if_neg hbell, if_neg htab, if_neg hback, if_neg hhome, if_neg hfeed]

theorem typeByte_back (h : t.top 48 * 128 < t.pos) (color : UInt8) :
    typeByte t (8, color) = { t with pos := t.pos - 1 } := by
  show t.back 128 (t.top 48) = _
  exact if_pos h

theorem textOf_put (t : Teletype Cell) (x : Cell) : textOf (t.put 128 x) = Function.update (textOf t) t.pos x.1 := by
  funext p
  show (Function.update t.paper t.pos x p).1 = _
  by_cases hp : p = t.pos
  · rw [hp, Function.update_self, Function.update_self]
  · rw [Function.update_of_ne hp, Function.update_of_ne hp]
    rfl

theorem AtEnd.written (h : AtEnd base) (far : Nat) : Written far base base [] where
  text := (overwrite_nil ..).symm
  pos := rfl
  last := Nat.le_trans h.last (Nat.div_le_div_right (Nat.le_add_right ..))
  room := Nat.zero_le _

theorem atEnd_fresh : AtEnd (.fresh blankCell) where
  last := Nat.zero_le _
  blank _ _ := rfl

theorem Written.put (h : Written far base t line) (hroom : line.length < far) (c color : UInt8) :
    Written far base (t.put 128 (c, color)) (line ++ [c]) where
  text := by
    rw [textOf_put, h.text, h.pos, ← overwrite_single, overwrite_concat]
  pos := by
    rw [List.length_append]
    exact congrArg (· + 1) h.pos
  last := by
    show max t.last ((t.pos + 1) / 128) ≤ _
    have hlast := h.last
    have hpos := h.pos
    omega
  room := by
    rw [List.length_append]
    exact hroom

/-- The line has not left the screen. -/
theorem Written.inSight (h : Written far base t line) (hfar : far ≤ 5889) : t.top 48 * 128 ≤ base.pos := by
  have hlast := h.last
  unfold Teletype.top
  omega

/-- A backspace, a space and a backspace. -/
theorem Written.erase (h : Written far base t (line ++ [c])) (hend : AtEnd base) (hfar : far ≤ 5889) (color : UInt8) :
    Written far base (typeByte (typeByte (typeByte t (8, color)) (32, color)) (8, color)) line := by
  have hroom := h.room
  have hpos := h.pos
  have hlast := h.last
  have hsight := h.inSight hfar
  rw [List.length_append, List.length_singleton] at hroom hpos
  have hback : typeByte t (8, color) = { t with pos := t.pos - 1 } := typeByte_back (by omega) color
  have hput : typeByte { t with pos := t.pos - 1 } (32, color) =
      Teletype.put 128 { t with pos := t.pos - 1 } (32, color) :=
    typeByte_ordinary ⟨by decide, by decide⟩ _ _
  have hreached : max t.last ((t.pos - 1 + 1) / 128) ≤ (base.pos + far) / 128 := by omega
  have hagain : typeByte (Teletype.put 128 { t with pos := t.pos - 1 } (32, color)) (8, color) =
      { Teletype.put 128 { t with pos := t.pos - 1 } (32, color) with pos := t.pos - 1 } := by
    refine typeByte_back ?_ color
    show (max t.last ((t.pos - 1 + 1) / 128) + 1 - 48) * 128 < t.pos - 1 + 1
    omega
  rw [hback, hput, hagain]
  refine ⟨?_, ?_, hreached, Nat.le_of_succ_le hroom⟩
  · show textOf (Teletype.put 128 { t with pos := t.pos - 1 } (32, color)) = _
    rw [textOf_put]
    funext p
    show Function.update (textOf t) (t.pos - 1) 32 p = _
    rw [h.text, ← overwrite_concat, overwrite_single]
    have hcell : t.pos - 1 = base.pos + line.length := by omega
    rw [hcell]
    by_cases hp : p = base.pos + line.length
    · -- the cell of the erased character is as empty as before
      rw [hp, Function.update_self, overwrite_apart (.inr (Nat.le_refl _)), hend.blank _ (Nat.le_add_right ..)]
    · rw [Function.update_of_ne hp, Function.update_of_ne hp]
  · show t.pos - 1 = _
    omega

end Paper

/-! ## The loop -/

/-- The line is on the screen as it is in the buffer. -/
structure Echoes (far : Nat) (base : Teletype Cell) (con : Console) (line : List UInt8) : Prop where
  echo : con.echo = true
  plain : Shown.char 27 ∉ con.out
  written : Written far base (paperOf con.out) line
  ordinary : ∀ c ∈ line, Ordinary c

/-- What is shown, and whether keys are, has not changed. -/
structure SameOutput (con con' : Console) : Prop where
  out : con'.out = con.out
  echo : con'.echo = con.echo

section Screen

variable {con con' : Console} {c : UInt8}

theorem sameOutput_meanwhile (con : Console) (ticks : List Nat) : SameOutput con (meanwhile con ticks).1 := by
  cases ticks with
  | nil => exact ⟨rfl, rfl⟩
  | cons n ticks => exact ⟨rfl, rfl⟩

theorem SameOutput.trans {con'' : Console} (h : SameOutput con con') (h' : SameOutput con' con'') : SameOutput con con'' :=
  ⟨h'.out.trans h.out, h'.echo.trans h.echo⟩

theorem sameOutput_getchar (h : con.getchar = .ret (con', c)) : SameOutput con con' := by
  unfold Console.getchar at h
  split at h
  · cases h
    exact ⟨rfl, rfl⟩
  · cases h
    exact ⟨rfl, rfl⟩
  · cases h

theorem sameOutput_skipSequence (fuel : Nat) (con : Console) (ticks : List Nat) :
    SameOutput con (skipSequence fuel con ticks).1 := by
  induction fuel generalizing con ticks with
  | zero => exact ⟨rfl, rfl⟩
  | succ fuel ih =>
      have hnow := sameOutput_meanwhile con ticks
      unfold skipSequence
      generalize meanwhile con ticks = now at hnow
      obtain ⟨con₁, ticks₁⟩ := now
      dsimp only at hnow ⊢
      split
      · exact hnow
      · rename_i c rest htyped
        have hnext : SameOutput con { con₁ with typed := rest } := ⟨hnow.out, hnow.echo⟩
        split
        · exact hnext
        · exact hnext.trans (ih _ _)

theorem sameOutput_skipEscape (con : Console) (ticks : List Nat) : SameOutput con (skipEscape con ticks).1 := by
  have hnow := sameOutput_meanwhile con ticks
  unfold skipEscape
  generalize meanwhile con ticks = now at hnow
  obtain ⟨con₁, ticks₁⟩ := now
  dsimp only at hnow ⊢
  split
  · exact hnow
  · rename_i c rest htyped
    have hnext : SameOutput con { con₁ with typed := rest } := ⟨hnow.out, hnow.echo⟩
    split
    · exact hnext.trans (sameOutput_skipSequence _ _ _)
    · exact hnext

end Screen

section Echo

variable {far : Nat} {base : Teletype Cell} {con con' : Console} {line : List UInt8} {buf : Nat → UInt8} {c : UInt8}

theorem Echoes.same (h : Echoes far base con line) (hsame : SameOutput con con') : Echoes far base con' line where
  echo := hsame.echo.trans h.echo
  plain := by
    rw [hsame.out]
    exact h.plain
  written := by
    rw [hsame.out]
    exact h.written
  ordinary := h.ordinary

theorem echoChar_out (hecho : con.echo = true) (c : UInt8) : con.echoChar c = { con with out := con.out ++ [.char c] } :=
  if_pos hecho

theorem echoChar_three (hecho : con.echo = true) (a b c : UInt8) : ((con.echoChar a).echoChar b).echoChar c =
    { con with out := con.out ++ [.char a] ++ [.char b] ++ [.char c] } := by
  unfold Console.echoChar Console.printChar
  simp only [hecho, if_true]

theorem not_escape_concat {out : List Shown} {x : Shown} (h : Shown.char 27 ∉ out) (hx : x ≠ .char 27) :
    Shown.char 27 ∉ out ++ [x] := by
  rw [List.mem_append, List.mem_singleton, not_or]
  exact ⟨h, fun heq => hx heq.symm⟩

theorem char_ne_escape (hc : c ≠ 27) : Shown.char c ≠ .char 27 := by
  intro h
  cases h
  exact hc rfl

/-- A character is printed and becomes a part of the line. -/
theorem Echoes.char (h : Echoes far base con line) (hc : Ordinary c) (hroom : line.length < far) :
    Echoes far base (con.echoChar c) (line ++ [c]) := by
  rw [echoChar_out h.echo]
  refine ⟨h.echo, not_escape_concat h.plain (char_ne_escape hc.1.2.2.2.2), ?_, ?_⟩
  · show Written far base (paperOf (con.out ++ [.char c])) _
    rw [paperOf_concat]
    show Written far base (typeByte _ (c, colorWhite)) _
    rw [typeByte_ordinary hc]
    exact h.written.put hroom c colorWhite
  · intro d hd
    rcases List.mem_append.mp hd with hd | hd
    · exact h.ordinary d hd
    · rw [List.mem_singleton.mp hd]
      exact hc

/-- `n` characters are erased from the screen. -/
theorem Echoes.erase {i n : Nat} (hend : AtEnd base) (hfar : far ≤ 5889) (h : Echoes far base con (lineOf buf (i + n))) :
    Echoes far base (con.echoErase n) (lineOf buf i) := by
  induction n generalizing con with
  | zero => exact h
  | succ n ih =>
      rw [← Nat.add_assoc, lineOf_succ] at h
      unfold Console.echoErase
      refine ih ?_
      have hwritten := h.written.erase hend hfar colorWhite
      rw [echoChar_three h.echo]
      refine ⟨h.echo, ?_, ?_, fun d hd => h.ordinary d (List.mem_append_left _ hd)⟩
      · exact not_escape_concat (not_escape_concat (not_escape_concat h.plain (char_ne_escape (by decide)))
          (char_ne_escape (by decide))) (char_ne_escape (by decide))
      · show Written far base (paperOf (con.out ++ [.char 8] ++ [.char 32] ++ [.char 8])) _
        rw [paperOf_concat, paperOf_concat, paperOf_concat]
        exact hwritten

/-- The line is printed on a cleared screen. -/
theorem Echoes.redraw {i : Nat} (h : Echoes far base con (lineOf buf i)) :
    Echoes far (.fresh blankCell) ({ con with out := con.out ++ [Shown.clear] }.echoLine buf i) (lineOf buf i) := by
  have hi : i ≤ far := by
    have hroom := h.written.room
    rwa [length_lineOf] at hroom
  have hcleared : Echoes far (.fresh blankCell) { con with out := con.out ++ [Shown.clear] } [] := by
    refine ⟨h.echo, not_escape_concat h.plain (by decide), ?_, fun d hd => absurd hd List.not_mem_nil⟩
    show Written far _ (paperOf (con.out ++ [Shown.clear])) []
    rw [paperOf_concat]
    exact atEnd_fresh.written far
  have hline : ∀ c ∈ lineOf buf i, Ordinary c := h.ordinary
  clear h
  unfold Console.echoLine
  induction i with
  | zero => exact hcleared
  | succ i ih =>
      rw [lineOf_succ] at hline ⊢
      rw [List.range_succ, List.foldl_append]
      have hbefore := ih (Nat.le_of_succ_le hi) fun c hc => hline c (List.mem_append_left _ hc)
      refine hbefore.char (hline _ (List.mem_append_right _ (List.mem_singleton.mpr rfl))) ?_
      rw [length_lineOf]
      exact hi

/-- The line that is being edited began at `base`, and only `^L` has cleared the screen
since. -/
structure Begun (before : List Shown) (keys : List UInt8) (con : Console) (base : Teletype Cell) : Prop where
  grown : before <+: con.out
  base : base = baseOf before con.out
  cleared : .clear ∈ con.out.drop before.length → 12 ∈ keys

variable {before : List Shown} {keys : List UInt8}

theorem Begun.same (h : Begun before keys con base) (hsame : SameOutput con con') : Begun before keys con' base := by
  obtain ⟨hgrown, hbase, hcleared⟩ := h
  rw [← hsame.out] at hgrown hbase hcleared
  exact ⟨hgrown, hbase, hcleared⟩

theorem Begun.echoChar (h : Begun before keys con base) (c : UInt8) : Begun before keys (con.echoChar c) base := by
  unfold Console.echoChar
  split
  · obtain ⟨new, hnew⟩ := h.grown
    have hsince : Shown.clear ∈ (con.out ++ [Shown.char c]).drop before.length ↔
        Shown.clear ∈ con.out.drop before.length := by
      rw [← hnew, List.append_assoc, List.drop_left, List.drop_left, List.mem_append, List.mem_singleton]
      exact or_iff_left nofun
    refine ⟨h.grown.trans (List.prefix_append _ _), ?_, fun hc => h.cleared (hsince.mp hc)⟩
    rw [h.base, baseOf, baseOf]
    exact if_congr hsince.symm rfl rfl
  · exact h

theorem Begun.echoErase (h : Begun before keys con base) (n : Nat) : Begun before keys (con.echoErase n) base := by
  induction n generalizing con with
  | zero => exact h
  | succ n ih => exact ih (((h.echoChar 8).echoChar 32).echoChar 8)

theorem Begun.echoLine (h : Begun before keys con base) (buf : Nat → UInt8) (i : Nat) :
    Begun before keys (con.echoLine buf i) base := by
  unfold Console.echoLine
  induction List.range i generalizing con with
  | nil => exact h
  | cons j js ih => exact ih (h.echoChar (buf j))

/-- `^L` -/
theorem Begun.clear (h : Begun before keys con base) (hkey : 12 ∈ keys) :
    Begun before keys { con with out := con.out ++ [.clear] } (.fresh blankCell) := by
  obtain ⟨new, hnew⟩ := h.grown
  have hsince : .clear ∈ (con.out ++ [Shown.clear]).drop before.length := by
    rw [← hnew, List.append_assoc, List.drop_left]
    exact List.mem_append_right _ (List.mem_singleton_self _)
  exact ⟨h.grown.trans (List.prefix_append _ _), (if_pos hsince).symm, fun _ => hkey⟩

/-- The read has returned. -/
def ReadSeen (before : List Shown) (keys : List UInt8) (x : Console × (Nat → UInt8) × Int) : Prop :=
  Shown.char 27 ∉ x.1.out ∧ (.clear ∈ x.1.out.drop before.length → 12 ∈ keys) ∧
    (x.2.2 ≠ 0 → LineSeen before x.1.out (paperOf x.1.out) x.2.1 x.2.2)

theorem lineOf_behind (buf : Nat → UInt8) (i : Nat) (c : UInt8) : lineOf (Function.update buf i c) i = lineOf buf i :=
  List.map_congr_left fun _ hj => Function.update_of_ne (Nat.ne_of_lt (List.mem_range.mp hj)) ..

theorem int32_small {i : Nat} (hi : i ≤ 5890) : int32 i = i := if_pos (by omega)

variable {i : Nat}

theorem Echoes.ended (h : Echoes far base con (lineOf buf i)) (hbase : Begun before keys con base)
    (hfar : far ≤ 5889) : (endLine con buf i).Ensures (ReadSeen before keys) := by
  have hroom := h.written.room
  rw [length_lineOf] at hroom
  have hseen : ShowsLine base (paperOf con.out) (lineOf buf i) := ⟨h.written.text, h.written.inSight hfar⟩
  have hpos := h.written.pos
  rw [hbase.base] at hseen hpos
  refine .ret ⟨h.plain, hbase.cleared, fun _ => ⟨lineOf buf i, hseen, .inl ⟨?_, hpos⟩⟩⟩
  show lineOf (Function.update buf i 0) (int32 i).toNat = _
  rw [int32_small (by omega), Int.toNat_natCast, lineOf_behind]

/-- ENTER: the cursor goes to the next line. -/
theorem Echoes.entered (h : Echoes far base con (lineOf buf i)) (hbase : Begun before keys con base)
    (hfar : far ≤ 5889) (hi : i < far) :
    (endLine (con.echoChar 10) (Function.update buf i 10) (i + 1)).Ensures (ReadSeen before keys) := by
  have hpos := h.written.pos
  have hlast := h.written.last
  have hend := hbase.echoChar 10
  rw [length_lineOf] at hpos
  rw [echoChar_out h.echo] at hend ⊢
  have hfed : paperOf (con.out ++ [.char 10]) = (paperOf con.out).feed 128 := paperOf_concat ..
  have hseen : ShowsLine base (paperOf (con.out ++ [.char 10])) (lineOf buf i) := by
    rw [hfed]
    refine ⟨h.written.text, ?_⟩
    show (max (paperOf con.out).last ((paperOf con.out).pos / 128 + 1) + 1 - 48) * 128 ≤ base.pos
    omega
  have hnext : (paperOf (con.out ++ [.char 10])).pos = ((base.pos + (lineOf buf i).length) / 128 + 1) * 128 := by
    rw [hfed, length_lineOf, ← hpos]
    rfl
  have hbegan := hend.base
  dsimp only at hbegan
  rw [hbegan] at hseen hnext
  refine .ret ⟨not_escape_concat h.plain (char_ne_escape (by decide)), hend.cleared, fun _ =>
    ⟨lineOf buf i, hseen, .inr ⟨?_, hnext⟩⟩⟩
  show lineOf (Function.update (Function.update buf i 10) (i + 1) 0) (int32 (i + 1 : Nat)).toNat = _
  rw [int32_small (by omega), Int.toNat_natCast, lineOf_behind, lineOf_update]

theorem ordinary_of (hends : ¬endsLine c) (hback : ¬(c = 8 ∨ c = 127)) (hesc : c ≠ 27) (hkey : c ≠ 7 ∧ c ≠ 9) :
    Ordinary c := by
  simp only [endsLine, decide_eq_true_eq, not_or] at hends
  obtain ⟨hlf, hcr, -, -⟩ := hends
  exact ⟨⟨hkey.1, fun h => hback (.inl h), hkey.2, hcr, hesc⟩, hlf⟩

/-- A key that ends the line. -/
theorem Echoes.afterEnd {count : Nat} (fuel : Nat) (ticks : List Nat) (h : Echoes (count - 1) base con (lineOf buf i))
    (hbase : Begun before keys con base) (hcount : count ≤ 5890) (hi : i < count - 1) (hends : endsLine c) :
    (afterKey count fuel con ticks buf i c).Ensures (ReadSeen before keys) := by
  have hfar : count - 1 ≤ 5889 := by omega
  unfold afterKey
  by_cases henter : c = 10 ∨ c = 13
  · rw [if_pos henter]
    exact h.entered hbase hfar hi
  rw [if_neg henter]
  by_cases heof : c = 4
  · rw [if_pos heof]
    split
    · exact .ret ⟨h.plain, hbase.cleared, fun hne => absurd rfl hne⟩
    · exact h.ended hbase hfar
  rw [if_neg heof]
  have hintr : c = 3 := by
    simp only [endsLine, decide_eq_true_eq] at hends
    rcases hends with hc | hc | hc | hc
    · exact absurd (.inl hc) henter
    · exact absurd (.inr hc) henter
    · exact absurd hc heof
    · exact hc
  have hcancelled := ((hbase.echoChar 94).echoChar 67).echoChar 10
  rw [echoChar_three h.echo] at hcancelled
  rw [if_pos hintr, echoChar_three h.echo]
  refine .ret ⟨?_, hcancelled.cleared, fun hne => absurd rfl hne⟩
  exact not_escape_concat (not_escape_concat (not_escape_concat h.plain (char_ne_escape (by decide)))
    (char_ne_escape (by decide))) (char_ne_escape (by decide))

/-- A key that edits: screen and buffer agree again when the loop goes on. -/
theorem Echoes.afterEdit {count : Nat} (fuel : Nat) (ticks : List Nat) (h : Echoes (count - 1) base con (lineOf buf i))
    (hbase : Begun before keys con base) (hend : AtEnd base) (hcount : count ≤ 5890) (hi : i < count - 1)
    (hends : ¬endsLine c) (hesc : c ≠ 27) (hkey : c ≠ 7 ∧ c ≠ 9) (htyped : c ∈ keys) :
    ∃ base' con' buf' j, afterKey count fuel con ticks buf i c = timedLoop count fuel con' ticks buf' j ∧
      SameKeys con con' ∧ Begun before keys con' base' ∧ AtEnd base' ∧
      Echoes (count - 1) base' con' (lineOf buf' j) := by
  have hfar : count - 1 ≤ 5889 := by omega
  have hkeep := hends
  simp only [endsLine, decide_eq_true_eq, not_or] at hends
  obtain ⟨hlf, hcr, heof, hintr⟩ := hends
  unfold afterKey
  rw [if_neg (not_or.mpr ⟨hlf, hcr⟩), if_neg heof, if_neg hintr]
  by_cases hback : c = 8 ∨ c = 127
  · rw [if_pos hback]
    cases i with
    | zero => exact ⟨base, con, buf, 0, rfl, ⟨rfl, rfl⟩, hbase, hend, h⟩
    | succ i => exact ⟨base, _, buf, i, rfl, sameKeys_echoErase con 1, hbase.echoErase 1, hend, h.erase hend hfar⟩
  rw [if_neg hback]
  by_cases hkill : c = 21
  · rw [if_pos hkill]
    rw [← Nat.zero_add i] at h
    exact ⟨base, _, buf, 0, rfl, sameKeys_echoErase con i, hbase.echoErase i, hend, h.erase hend hfar⟩
  rw [if_neg hkill]
  by_cases hword : c = 23
  · rw [if_pos hword]
    rw [← Nat.add_sub_cancel' (eraseWord_le buf i)] at h
    exact ⟨base, _, buf, _, rfl, sameKeys_echoErase con _, hbase.echoErase _, hend, h.erase hend hfar⟩
  rw [if_neg hword]
  by_cases hclear : c = 12
  · have hkeys : SameKeys con { con with out := con.out ++ [.clear] } := ⟨rfl, rfl⟩
    rw [if_pos hclear]
    exact ⟨_, _, buf, i, rfl, hkeys.trans (sameKeys_echoLine _ buf i), (hbase.clear (hclear ▸ htyped)).echoLine buf i,
      atEnd_fresh, h.redraw⟩
  · rw [if_neg hclear, if_neg hesc]
    refine ⟨base, _, _, i + 1, rfl, sameKeys_echoChar con c, hbase.echoChar c, hend, ?_⟩
    rw [lineOf_update]
    refine h.char (ordinary_of hkeep hback hesc hkey) ?_
    rwa [length_lineOf]

/-- Screen and buffer agree at the end of each round, and when the read returns. -/
theorem Echoes.loop {count : Nat} (fuel : Nat) (ticks : List Nat) (h : Echoes (count - 1) base con (lineOf buf i))
    (hbase : Begun before keys con base) (hend : AtEnd base) (hcount : count ≤ 5890)
    (hkeys : ∀ k ∈ keysLeft con, k ∈ keys ∧ k ≠ 7 ∧ k ≠ 9) :
    (timedLoop count fuel con ticks buf i).Ensures (ReadSeen before keys) := by
  induction fuel generalizing base con ticks buf i with
  | zero => exact nofun
  | succ fuel ih =>
      rw [timedLoop_succ]
      by_cases hi : i < count - 1
      · rw [if_pos hi]
        rw [← keysLeft_meanwhile con ticks] at hkeys
        have hnow := h.same (sameOutput_meanwhile con ticks)
        have hbegun := hbase.same (sameOutput_meanwhile con ticks)
        generalize meanwhile con ticks = now at hkeys hnow hbegun ⊢
        obtain ⟨con₁, ticks₁⟩ := now
        dsimp only at hkeys hnow hbegun ⊢
        rcases getchar_cases con₁ with ⟨-, hget⟩ | ⟨con₂, c, hget, hleft⟩
        · rw [hget]
          exact nofun
        rw [hget, Exec.ret_bind]
        dsimp only
        rw [hleft] at hkeys
        obtain ⟨⟨htyped, hkey⟩, hrest⟩ := List.forall_mem_cons.mp hkeys
        have hread := hnow.same (sameOutput_getchar hget)
        have hbase := hbegun.same (sameOutput_getchar hget)
        by_cases hends : endsLine c
        · exact hread.afterEnd fuel ticks₁ hbase hcount hi hends
        by_cases hesc : c = 27
        · subst hesc
          obtain ⟨skip, hskip, -⟩ := skipEscape_skips con₂ ticks₁
          have hskipped := hread.same (sameOutput_skipEscape con₂ ticks₁)
          refine ih (skipEscape con₂ ticks₁).2 hskipped (hbase.same (sameOutput_skipEscape con₂ ticks₁)) hend
            fun k hk => ?_
          refine hrest k ?_
          rw [← hskip]
          exact List.mem_append_right _ hk
        · obtain ⟨base', con', buf', j, hloop, hsame, hbase', hend', h'⟩ :=
            hread.afterEdit fuel ticks₁ hbase hend hcount hi hends hesc hkey htyped
          rw [hloop]
          refine ih ticks₁ h' hbase' hend' ?_
          rw [keysLeft_of_same hsame]
          exact hrest
      · rw [if_neg hi]
        exact h.ended hbase (by omega)

end Echo

/-- **What is seen is what is read.**  A canonical read with echo, for a buffer of at
most 5890 bytes, begins with the cursor behind all that is on the screen, on which no
escape sequence has been printed.  Whatever is typed, in whatever bursts, but tabs and
bells: when it returns with a line, the screen shows that line, all of it, and no more
than was there before.  The line is where the cursor was, unless `^L` was typed. -/
theorem echo_shows_line {s : Statics} (hn : s.ansiState = .normal) {con con' : Console} {ticks : List Nat}
    {buf buf' : Nat → UInt8} {count : Nat} {r : Int} (hecho : con.echo = true) (hout : Shown.char 27 ∉ con.out)
    (hend : AtEnd (paperOf con.out)) (hcount : count ≤ 5890) (hkeys : ∀ k ∈ keysLeft con, k ≠ 7 ∧ k ≠ 9)
    (hread : timedRead con ticks buf count = .ret (con', buf', r)) (hr : r ≠ 0) :
    ((drawAll (clear s) con'.out).Returns fun s' => ∃ t, OnPaper s' t ∧ LineSeen con.out con'.out t buf' r) ∧
      (12 ∉ keysLeft con → baseOf con.out con'.out = paperOf con.out) := by
  have hstart : Echoes (count - 1) (paperOf con.out) con (lineOf buf 0) :=
    ⟨hecho, hout, hend.written _, fun c hc => absurd hc List.not_mem_nil⟩
  have hnone : Shown.clear ∉ con.out.drop con.out.length := by
    rw [List.drop_length]
    exact List.not_mem_nil
  have hbase : Begun con.out (keysLeft con) con (paperOf con.out) :=
    ⟨List.prefix_rfl, (if_neg hnone).symm, fun hc => absurd hc hnone⟩
  obtain ⟨hplain, hcleared, hseen⟩ := hstart.loop (con.typed.length + con.coming.length + 1) ticks hbase hend hcount
    (fun k hk => ⟨hk, hkeys k hk⟩) (con', buf', r) hread
  exact ⟨((onPaper_clear hn).draw hplain).mono fun s' h => ⟨_, h, hseen hr⟩, fun hkey => if_neg (mt hcleared hkey)⟩

/-! ## At a prompt -/

theorem AtEnd.char {t : Teletype Cell} {c : UInt8} (h : AtEnd t) (hc : Ordinary c) (color : UInt8) :
    AtEnd (typeByte t (c, color)) := by
  rw [typeByte_ordinary hc]
  refine ⟨?_, fun p hp => ?_⟩
  · show max t.last ((t.pos + 1) / 128) ≤ (t.pos + 1) / 128
    have hlast := h.last
    omega
  · have hbehind : t.pos < p := hp
    rw [textOf_put, Function.update_of_ne (Nat.ne_of_gt hbehind)]
    exact h.blank p (Nat.le_of_lt hbehind)

theorem AtEnd.lineEnd {t : Teletype Cell} (h : AtEnd t) (color : UInt8) : AtEnd (typeByte t (10, color)) := by
  show AtEnd (t.feed 128)
  have hlast := h.last
  refine ⟨?_, fun p hp => h.blank p ?_⟩
  · show max t.last (t.pos / 128 + 1) ≤ (t.pos / 128 + 1) * 128 / 128
    omega
  · have hnext : (t.pos / 128 + 1) * 128 ≤ p := hp
    omega

/-- Behind a text the cursor is behind all that is on the screen. -/
theorem atEnd_text {text : List UInt8} (htext : ∀ c ∈ text, Ordinary c ∨ c = 10) :
    AtEnd (paperOf (text.map .char)) := by
  induction text using List.reverseRec with
  | nil => exact atEnd_fresh
  | append_singleton text c ih =>
      have hbefore := ih fun d hd => htext d (List.mem_append_left _ hd)
      rw [List.map_append, List.map_singleton, paperOf_concat]
      rcases htext c (List.mem_append_right _ (List.mem_singleton.mpr rfl)) with hc | rfl
      · exact hbefore.char hc colorWhite
      · exact hbefore.lineEnd colorWhite

instance (c : UInt8) : Decidable (Ordinary c) := inferInstanceAs (Decidable (_ ∧ _))

/-- A prompt in the second line; `l`, `z`, a backspace and `s`, and then ENTER. -/
def atPrompt : Console :=
  { canonical := true, echo := true, vmin := 1, typed := [108, 122, 8, 115], coming := [10]
    out := [104, 105, 10, 36, 32].map .char }

/-- The line `ls` is behind the prompt. -/
theorem command_seen : ∃ con' buf', timedRead atPrompt [] (fun _ => 0) 80 = .ret (con', buf', 3) ∧
    lineOf buf' 3 = [108, 115, 10] ∧ baseOf atPrompt.out con'.out = paperOf atPrompt.out ∧
    (drawAll (clear (bootStatics (.vga fun _ => 0))) con'.out).Returns fun s' =>
      ∃ t, OnPaper s' t ∧ LineSeen atPrompt.out con'.out t buf' 3 := by
  obtain ⟨con', buf', hread, hline⟩ : ∃ con' buf', timedRead atPrompt [] (fun _ => 0) 80 = .ret (con', buf', 3) ∧
      lineOf buf' 3 = [108, 115, 10] := ⟨_, _, rfl, by decide⟩
  have hend : AtEnd (paperOf atPrompt.out) := atEnd_text (by simp [Ordinary, Plain])
  obtain ⟨hseen, hbase⟩ := echo_shows_line (s := bootStatics (.vga fun _ => 0)) rfl rfl (by decide) hend (by decide)
    (by simp [keysLeft, atPrompt]) hread (by decide)
  exact ⟨con', buf', hread, hline, hbase (by simp [keysLeft, atPrompt]), hseen⟩

end LiteBSD.Tty
