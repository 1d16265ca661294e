/-
# `LiteBSD.Files.Lines` — where a canonical read ends

A canonical `sys_read` edits a line in the caller's buffer and is to return
when the line is complete (ENTER, or `^D` behind something), when the buffer
is full, and with 0 at `^D` on an empty line and at `^C`.  Room is kept for
the NUL behind the line; so a buffer of ONE byte is full before the first
key, and the read returns 0 without having looked at the keyboard.

Keys come at any time, and for an escape it makes a difference when: what is
in the ring behind it is dropped as a part of its sequence.  So the loop is
gone through here with keys arriving before each look at the ring (`ticks`
says how many); with none arriving it is the loop of `LiteBSD.Files.Console`
(`timedLoop_nil`).  Which keys the loop has seen, and which were dropped, is
described by `KeysOf`, without the loop.
-/
import LiteBSD.Files.Ready

namespace LiteBSD.Files

/-- `n` keys are pressed. -/
def arrive (con : Console) (n : Nat) : Console :=
  { con with typed := con.typed ++ con.coming.take n, coming := con.coming.drop n }

/-- Before a look at the ring: the keys that have come since the last. -/
def meanwhile (con : Console) : List Nat → Console × List Nat
  | [] => (con, [])
  | n :: ticks => (arrive con n, ticks)

/-- A letter or `~` ends an escape sequence. -/
def endsSequence (c : UInt8) : Bool := (65 ≤ c ∧ c ≤ 90) ∨ (97 ≤ c ∧ c ≤ 122) ∨ c = 126

/-- `while (keyboard_available() > 0)` behind `ESC [`.  A key that comes
between `keyboard_available` and `keyboard_trygetc` might as well come before
the next look. -/
def skipSequence : Nat → Console → List Nat → Console × List Nat
  | 0, con, ticks => (con, ticks)
  | fuel + 1, con, ticks =>
      let (con, ticks) := meanwhile con ticks
      match con.typed with
      | [] => (con, ticks)
      | c :: rest =>
          if endsSequence c then ({ con with typed := rest }, ticks)
          else skipSequence fuel { con with typed := rest } ticks

/-- What is dropped behind an escape. -/
def skipEscape (con : Console) (ticks : List Nat) : Console × List Nat :=
  let (con, ticks) := meanwhile con ticks
  match con.typed with
  | [] => (con, ticks)
  | c :: rest =>
      if c = 91 ∨ c = 79 then
        skipSequence (rest.length + con.coming.length + 1) { con with typed := rest } ticks
      else ({ con with typed := rest }, ticks)

/-- The loop of a canonical read, with keys arriving while it runs. -/
def timedLoop (count : Nat) : Nat → Console → List Nat → (Nat → UInt8) → Nat →
    Exec (Console × (Nat → UInt8) × Int)
  | 0, _, _, _, _ => .hang
  | fuel + 1, con, ticks, buf, i =>
      if i < count - 1 then do
        let (con, ticks) := meanwhile con ticks
        let (con, c) ← con.getchar
        if c = 10 ∨ c = 13 then endLine (con.echoChar 10) (Function.update buf i 10) (i + 1)
        else if c = 4 then if i = 0 then .ret (con, buf, 0) else endLine con buf i
        else if c = 3 then
          .ret (((con.echoChar 94).echoChar 67).echoChar 10, Function.update buf 0 0, 0)
        else if c = 8 ∨ c = 127 then
          if i > 0 then timedLoop count fuel (con.echoErase 1) ticks buf (i - 1)
          else timedLoop count fuel con ticks buf i
        else if c = 21 then timedLoop count fuel (con.echoErase i) ticks buf 0
        else if c = 23 then
          timedLoop count fuel (con.echoErase (i - eraseWord buf i)) ticks buf (eraseWord buf i)
        else if c = 12 then
          timedLoop count fuel ({ con with out := con.out ++ [Shown.clear] }.echoLine buf i) ticks buf i
        else if c = 27 then
          let (con, ticks) := skipEscape con ticks
          timedLoop count fuel con ticks buf i
        else timedLoop count fuel (con.echoChar c) ticks (Function.update buf i c) (i + 1)
      else endLine con buf i

/-- A canonical `sys_read` on the console. -/
def timedRead (con : Console) (ticks : List Nat) (buf : Nat → UInt8) (count : Nat) :
    Exec (Console × (Nat → UInt8) × Int) :=
  timedLoop count (con.typed.length + con.coming.length + 1) con ticks buf 0

/-! ## Keys and lines -/

/-- The keys still to be read. -/
def keysLeft (con : Console) : List UInt8 := con.typed ++ con.coming

/-- What may be dropped behind an escape: nothing, one key, or a sequence as
far as it has come. -/
inductive Skipped : List UInt8 → Prop
  | nothing : Skipped []
  | key {c : UInt8} : c ≠ 91 → c ≠ 79 → Skipped [c]
  | sequence {c : UInt8} {body : List UInt8} : c = 91 ∨ c = 79 →
      (∀ x ∈ body.dropLast, ¬endsSequence x) → Skipped (c :: body)

/-- The keys that the loop gets to see of a stretch of the keyboard's stream. -/
inductive KeysOf : List UInt8 → List UInt8 → Prop
  | nil : KeysOf [] []
  | key {c : UInt8} {stream keys : List UInt8} : c ≠ 27 → KeysOf stream keys →
      KeysOf (c :: stream) (c :: keys)
  | escape {skip stream keys : List UInt8} : Skipped skip → KeysOf stream keys →
      KeysOf (27 :: skip ++ stream) (27 :: keys)

/-- The line after one key that does not end it. -/
def editKey (line : List UInt8) (c : UInt8) : List UInt8 :=
  if c = 27 then line else editLine line c

/-- The line after some. -/
def edited (line keys : List UInt8) : List UInt8 := keys.foldl editKey line

/-- The keys, behind `line`, make a line that a read of `count` bytes returns. -/
inductive Finished (count : Nat) (line : List UInt8) : List UInt8 → List UInt8 → Prop
  | enter {keys : List UInt8} {c : UInt8} : (∀ k ∈ keys, ¬endsLine k) → c = 10 ∨ c = 13 →
      Finished count line (keys ++ [c]) (edited line keys ++ [10])
  | eof {keys : List UInt8} : (∀ k ∈ keys, ¬endsLine k) → edited line keys ≠ [] →
      Finished count line (keys ++ [4]) (edited line keys)
  | full {keys : List UInt8} : (∀ k ∈ keys, ¬endsLine k) →
      (edited line keys).length = count - 1 → Finished count line keys (edited line keys)

/-- The keys, behind `line`, end it with nothing: `^D` on an empty line, or
`^C`. -/
inductive Nothing (line : List UInt8) : List UInt8 → Prop
  | eof {keys : List UInt8} : (∀ k ∈ keys, ¬endsLine k) → edited line keys = [] →
      Nothing line (keys ++ [4])
  | cancel {keys : List UInt8} : (∀ k ∈ keys, ¬endsLine k) → Nothing line (keys ++ [3])

/-- What a read of `count` bytes is to do with the stream, behind `line`: it
returns 0 for nothing and otherwise the bytes of a line, and changes nothing
behind the `count` bytes; or it has taken all there is and waits for more. -/
def ReadsLine (count : Nat) (stream line : List UInt8) (buf : Nat → UInt8) :
    Exec (Console × (Nat → UInt8) × Int) → Prop
  | .ret (con, buf', r) =>
      (∀ j, count ≤ j → buf' j = buf j) ∧
        ∃ taken keys, taken ++ keysLeft con = stream ∧ KeysOf taken keys ∧
          (r = 0 ∧ Nothing line keys ∨
            r ≠ 0 ∧ ∃ n result, r = int32 n ∧ 1 ≤ n ∧ n ≤ count ∧
              Finished count line keys result ∧ n ≤ result.length ∧ lineOf buf' n = result.take n)
  | .hang => ∃ keys, KeysOf stream keys ∧ (∀ k ∈ keys, ¬endsLine k) ∧
      (edited line keys).length < count - 1
  | _ => False

section Keys

variable {con : Console} {ticks : List Nat} {stream keys line : List UInt8} {c : UInt8}

theorem KeysOf.append {stream' keys' : List UInt8} (h : KeysOf stream keys)
    (h' : KeysOf stream' keys') : KeysOf (stream ++ stream') (keys ++ keys') := by
  induction h with
  | nil => exact h'
  | key hc _ ih => exact .key hc ih
  | escape hskip _ ih =>
      rw [List.append_assoc]
      exact .escape hskip ih

@[simp] theorem keysLeft_arrive (con : Console) (n : Nat) :
    keysLeft (arrive con n) = keysLeft con := by
  unfold keysLeft arrive
  rw [List.append_assoc, List.take_append_drop]

/-- Arriving, keys stay in their order. -/
@[simp] theorem keysLeft_meanwhile (con : Console) (ticks : List Nat) :
    keysLeft (meanwhile con ticks).1 = keysLeft con := by
  cases ticks with
  | nil => rfl
  | cons n ticks => exact keysLeft_arrive con n

theorem keysLeft_of_same {con' : Console} (h : SameKeys con con') : keysLeft con' = keysLeft con := by
  rw [keysLeft, keysLeft, h.typed, h.coming]

/-- What is skipped ends with the first key that ends a sequence, if one
comes in time. -/
theorem skipSequence_skips (fuel : Nat) (con : Console) (ticks : List Nat) :
    ∃ body, body ++ keysLeft (skipSequence fuel con ticks).1 = keysLeft con ∧
      ∀ x ∈ body.dropLast, ¬endsSequence x := by
  induction fuel generalizing con ticks with
  | zero => exact ⟨[], rfl, nofun⟩
  | succ fuel ih =>
      rw [← keysLeft_meanwhile con ticks]
      unfold skipSequence
      generalize meanwhile con ticks = now
      obtain ⟨con, ticks⟩ := now
      dsimp only
      cases htyped : con.typed with
      | nil => exact ⟨[], rfl, nofun⟩
      | cons c rest =>
          have hleft : keysLeft con = c :: keysLeft { con with typed := rest } := by
            rw [keysLeft, htyped]
            rfl
          dsimp only
          rw [hleft]
          split
          · exact ⟨[c], rfl, nofun⟩
          · rename_i hends
            obtain ⟨body, hbody, hnone⟩ := ih { con with typed := rest } ticks
            refine ⟨c :: body, congrArg (c :: ·) hbody, ?_⟩
            cases body with
            | nil => exact nofun
            | cons b body =>
                intro x hx
                rw [List.dropLast_cons_of_ne_nil (List.cons_ne_nil b body)] at hx
                rcases List.mem_cons.mp hx with rfl | hx
                · exact hends
                · exact hnone x hx

theorem skipEscape_skips (con : Console) (ticks : List Nat) :
    ∃ skip, skip ++ keysLeft (skipEscape con ticks).1 = keysLeft con ∧ Skipped skip := by
  rw [← keysLeft_meanwhile con ticks]
  unfold skipEscape
  generalize meanwhile con ticks = now
  obtain ⟨con, ticks⟩ := now
  dsimp only
  cases htyped : con.typed with
  | nil => exact ⟨[], rfl, .nothing⟩
  | cons c rest =>
      have hleft : keysLeft con = c :: keysLeft { con with typed := rest } := by
        rw [keysLeft, htyped]
        rfl
      dsimp only
      rw [hleft]
      split
      · rename_i hopen
        obtain ⟨body, hbody, hnone⟩ := skipSequence_skips (rest.length + con.coming.length + 1)
          { con with typed := rest } ticks
        exact ⟨c :: body, congrArg (c :: ·) hbody, .sequence hopen hnone⟩
      · rename_i hother
        exact ⟨[c], rfl, .key (fun h => hother (.inl h)) fun h => hother (.inr h)⟩

/-- `getchar` takes the first of the keys, or there is none. -/
theorem getchar_cases (con : Console) :
    (keysLeft con = [] ∧ con.getchar = .hang) ∨
      ∃ con' c, con.getchar = .ret (con', c) ∧ keysLeft con = c :: keysLeft con' := by
  unfold keysLeft Console.getchar
  cases htyped : con.typed with
  | cons c rest => exact .inr ⟨_, _, rfl, rfl⟩
  | nil =>
      cases hcoming : con.coming with
      | nil => exact .inl ⟨rfl, rfl⟩
      | cons c rest => exact .inr ⟨_, _, rfl, rfl⟩

end Keys

/-! ## One round of the loop -/

section Rounds

variable {count : Nat} {stream line : List UInt8} {buf buf₁ : Nat → UInt8} {c : UInt8}

theorem Finished.cons {keys result : List UInt8} (hc : ¬endsLine c)
    (h : Finished count (editKey line c) keys result) : Finished count line (c :: keys) result := by
  have hall {keys : List UInt8} (hkeys : ∀ k ∈ keys, ¬endsLine k) : ∀ k ∈ c :: keys, ¬endsLine k :=
    List.forall_mem_cons.mpr ⟨hc, hkeys⟩
  cases h with
  | @enter keys k hkeys hlast => exact @Finished.enter count line (c :: keys) k (hall hkeys) hlast
  | @eof keys hkeys hne => exact @Finished.eof count line (c :: keys) (hall hkeys) hne
  | full hkeys hlen => exact @Finished.full count line (c :: keys) (hall hkeys) hlen

theorem Nothing.cons {keys : List UInt8} (hc : ¬endsLine c)
    (h : Nothing (editKey line c) keys) : Nothing line (c :: keys) := by
  have hall {keys : List UInt8} (hkeys : ∀ k ∈ keys, ¬endsLine k) : ∀ k ∈ c :: keys, ¬endsLine k :=
    List.forall_mem_cons.mpr ⟨hc, hkeys⟩
  cases h with
  | @eof keys hkeys hempty => exact @Nothing.eof line (c :: keys) (hall hkeys) hempty
  | @cancel keys hkeys => exact @Nothing.cancel line (c :: keys) (hall hkeys)

/-- A key that edits, and the rest of the read behind it. -/
theorem ReadsLine.cons {part : List UInt8} {x : Exec (Console × (Nat → UInt8) × Int)}
    (hpart : KeysOf part [c]) (hc : ¬endsLine c) (hbuf : ∀ j, count ≤ j → buf₁ j = buf j)
    (h : ReadsLine count stream (editKey line c) buf₁ x) :
    ReadsLine count (part ++ stream) line buf x := by
  cases x with
  | ret a =>
      obtain ⟨con, buf', r⟩ := a
      obtain ⟨hkept, taken, keys, htaken, hkeys, hresult⟩ := h
      refine ⟨fun j hj => (hkept j hj).trans (hbuf j hj), part ++ taken, c :: keys, ?_,
        hpart.append hkeys, ?_⟩
      · rw [List.append_assoc, htaken]
      · rcases hresult with ⟨hr, hnone⟩ | ⟨hne, n, result, hr, hpos, hle, hdone, hstored⟩
        · exact .inl ⟨hr, hnone.cons hc⟩
        · exact .inr ⟨hne, n, result, hr, hpos, hle, hdone.cons hc, hstored⟩
  | hang =>
      obtain ⟨keys, hkeys, hall, hroom⟩ := h
      exact ⟨c :: keys, hpart.append hkeys, List.forall_mem_cons.mpr ⟨hc, hall⟩, hroom⟩
  | panic => exact h.elim
  | undefined => exact h.elim

/-- The line that is in the buffer is returned. -/
theorem readsLine_endLine {con : Console} {keys taken : List UInt8} {n : Nat}
    (htaken : taken ++ keysLeft con = stream) (hkeys : KeysOf taken keys)
    (hpos : 1 ≤ n) (hle : n < count) (hmax : count < 4294967296)
    (hbuf : ∀ j, count ≤ j → buf₁ j = buf j) (hdone : Finished count line keys (lineOf buf₁ n)) :
    ReadsLine count stream line buf (endLine con buf₁ n) := by
  have hne : int32 n ≠ 0 := by
    unfold int32
    split <;> omega
  have hsame : lineOf (Function.update buf₁ n 0) n = lineOf buf₁ n :=
    List.map_congr_left fun j hj => Function.update_of_ne (Nat.ne_of_lt (List.mem_range.mp hj)) _ _
  refine ⟨fun j hj => ?_, taken, keys, htaken, hkeys, .inr ⟨hne, n, lineOf buf₁ n, rfl,
    hpos, Nat.le_of_lt hle, hdone, ?_, ?_⟩⟩
  · rw [Function.update_of_ne (by omega)]
    exact hbuf j hj
  · exact Nat.le_of_eq (length_lineOf buf₁ n).symm
  · rw [hsame, List.take_of_length_le (Nat.le_of_eq (length_lineOf buf₁ n))]

end Rounds

theorem eraseBack_le (p : UInt8 → Bool) (buf : Nat → UInt8) (i : Nat) : eraseBack p buf i ≤ i := by
  induction i with
  | zero => exact Nat.le_refl _
  | succ i ih =>
      rw [eraseBack]
      split
      · exact Nat.le_succ_of_le ih
      · exact Nat.le_refl _

theorem eraseWord_le (buf : Nat → UInt8) (i : Nat) : eraseWord buf i ≤ i :=
  Nat.le_trans (eraseBack_le _ buf _) (eraseBack_le _ buf i)

/-- The body of the loop, once the key has been read. -/
def afterKey (count fuel : Nat) (con : Console) (ticks : List Nat) (buf : Nat → UInt8) (i : Nat)
    (c : UInt8) : Exec (Console × (Nat → UInt8) × Int) :=
  if c = 10 ∨ c = 13 then endLine (con.echoChar 10) (Function.update buf i 10) (i + 1)
  else if c = 4 then if i = 0 then .ret (con, buf, 0) else endLine con buf i
  else if c = 3 then
    .ret (((con.echoChar 94).echoChar 67).echoChar 10, Function.update buf 0 0, 0)
  else if c = 8 ∨ c = 127 then
    if i > 0 then timedLoop count fuel (con.echoErase 1) ticks buf (i - 1)
    else timedLoop count fuel con ticks buf i
  else if c = 21 then timedLoop count fuel (con.echoErase i) ticks buf 0
  else if c = 23 then
    timedLoop count fuel (con.echoErase (i - eraseWord buf i)) ticks buf (eraseWord buf i)
  else if c = 12 then
    timedLoop count fuel ({ con with out := con.out ++ [Shown.clear] }.echoLine buf i) ticks buf i
  else if c = 27 then
    let (con, ticks) := skipEscape con ticks
    timedLoop count fuel con ticks buf i
  else timedLoop count fuel (con.echoChar c) ticks (Function.update buf i c) (i + 1)

theorem timedLoop_succ (count fuel : Nat) (con : Console) (ticks : List Nat) (buf : Nat → UInt8)
    (i : Nat) :
    timedLoop count (fuel + 1) con ticks buf i =
      if i < count - 1 then do
        let (con, ticks) := meanwhile con ticks
        let (con, c) ← con.getchar
        afterKey count fuel con ticks buf i c
      else endLine con buf i := rfl

/-- A key that edits: the loop goes on with the edited line in the buffer. -/
theorem afterKey_edit {count : Nat} {buf : Nat → UInt8} {i : Nat} {c : UInt8} (fuel : Nat)
    (con : Console) (ticks : List Nat) (hi : i < count - 1) (hends : ¬endsLine c) (hesc : c ≠ 27) :
    ∃ con' buf' j, afterKey count fuel con ticks buf i c = timedLoop count fuel con' ticks buf' j ∧
      SameKeys con con' ∧ j ≤ count - 1 ∧ (∀ k, count ≤ k → buf' k = buf k) ∧
      lineOf buf' j = editLine (lineOf buf i) c := by
  simp only [endsLine, decide_eq_true_eq, not_or] at hends
  obtain ⟨hlf, hcr, heof, hintr⟩ := hends
  unfold afterKey editLine
  rw [if_neg (not_or.mpr ⟨hlf, hcr⟩), if_neg heof, if_neg hintr]
  by_cases hback : c = 8 ∨ c = 127
  · rw [if_pos hback, if_pos hback, ← lineOf_pred]
    split
    · exact ⟨_, _, _, rfl, sameKeys_echoErase con 1, by omega, fun _ _ => rfl, rfl⟩
    · rename_i hzero
      exact ⟨_, _, _, rfl, ⟨rfl, rfl⟩, by omega, fun _ _ => rfl, by rw [show i - 1 = i by omega]⟩
  rw [if_neg hback, if_neg hback]
  by_cases hkill : c = 21
  · rw [if_pos hkill, if_pos hkill]
    exact ⟨_, _, _, rfl, sameKeys_echoErase con i, Nat.zero_le _, fun _ _ => rfl, rfl⟩
  rw [if_neg hkill, if_neg hkill]
  by_cases hword : c = 23
  · have hle := eraseWord_le buf i
    rw [if_pos hword, if_pos hword, ← lineOf_eraseWord]
    exact ⟨_, _, _, rfl, sameKeys_echoErase con _, by omega, fun _ _ => rfl, rfl⟩
  rw [if_neg hword, if_neg hword]
  by_cases hclear : c = 12
  · have hkeys : SameKeys con { con with out := con.out ++ [.clear] } := ⟨rfl, rfl⟩
    rw [if_pos hclear, if_pos hclear]
    exact ⟨_, _, _, rfl, hkeys.trans (sameKeys_echoLine _ buf i), by omega, fun _ _ => rfl, rfl⟩
  · rw [if_neg hclear, if_neg hclear, if_neg hesc, ← lineOf_update]
    refine ⟨_, _, _, rfl, sameKeys_echoChar con c, by omega, fun k hk => ?_, rfl⟩
    exact Function.update_of_ne (by omega) _ _

/-- A key that ends the line. -/
theorem afterKey_end {count : Nat} {buf : Nat → UInt8} {i : Nat} {c : UInt8} (fuel : Nat)
    (con : Console) (ticks : List Nat) (hi : i < count - 1) (hmax : count < 4294967296)
    (hends : endsLine c) :
    ReadsLine count (c :: keysLeft con) (lineOf buf i) buf (afterKey count fuel con ticks buf i c) := by
  have hbefore : ∀ k ∈ ([] : List UInt8), ¬endsLine k := nofun
  have hone : KeysOf [c] [c] := by
    refine .key ?_ .nil
    rintro rfl
    exact absurd hends (by decide)
  have hsee {con' : Console} (hkeys : SameKeys con con') : [c] ++ keysLeft con' = c :: keysLeft con := by
    rw [keysLeft_of_same hkeys]
    rfl
  unfold afterKey
  by_cases henter : c = 10 ∨ c = 13
  · rw [if_pos henter]
    refine readsLine_endLine (hsee (sameKeys_echoChar con 10)) hone (by omega) (by omega) hmax
      (fun k hk => Function.update_of_ne (by omega) _ _) ?_
    rw [lineOf_update]
    exact .enter hbefore henter
  rw [if_neg henter]
  by_cases heof : c = 4
  · subst heof
    rw [if_pos rfl]
    split
    · rename_i hzero
      refine ⟨fun _ _ => rfl, [4], [4], hsee ⟨rfl, rfl⟩, hone, .inl ⟨rfl, ?_⟩⟩
      rw [hzero]
      exact @Nothing.eof _ [] hbefore rfl
    · rename_i hsome
      refine readsLine_endLine (hsee ⟨rfl, rfl⟩) hone (by omega) (by omega) hmax (fun _ _ => rfl) ?_
      refine @Finished.eof _ _ [] hbefore fun hempty => hsome ?_
      have hlen := congrArg List.length hempty
      rwa [edited, List.foldl_nil, length_lineOf, List.length_nil] at hlen
  rw [if_neg heof]
  have hintr : c = 3 := by
    simp only [endsLine, decide_eq_true_eq] at hends
    rcases hends with h | h | h | h
    · exact absurd (.inl h) henter
    · exact absurd (.inr h) henter
    · exact absurd h heof
    · exact h
  subst hintr
  rw [if_pos rfl]
  have hkeys := ((sameKeys_echoChar con 94).trans (sameKeys_echoChar _ 67)).trans
    (sameKeys_echoChar _ 10)
  refine ⟨fun k hk => Function.update_of_ne (by omega) _ _, [3], [3], hsee hkeys, hone,
    .inl ⟨rfl, ?_⟩⟩
  exact @Nothing.cancel _ [] hbefore

/-- With room for at least one key, the loop reads a line behind what is in
the buffer. -/
theorem timedLoop_reads {count : Nat} (hcount : 2 ≤ count) (hmax : count < 4294967296)
    (fuel : Nat) (con : Console) (ticks : List Nat) (buf : Nat → UInt8) (i : Nat)
    (hfuel : (keysLeft con).length < fuel) (hi : i ≤ count - 1) :
    ReadsLine count (keysLeft con) (lineOf buf i) buf (timedLoop count fuel con ticks buf i) := by
  induction fuel generalizing con ticks buf i with
  | zero => exact absurd hfuel (Nat.not_lt_zero _)
  | succ fuel ih =>
      rw [timedLoop_succ]
      by_cases hroom : i < count - 1
      · rw [if_pos hroom]
        rw [← keysLeft_meanwhile con ticks] at hfuel ⊢
        generalize meanwhile con ticks = now at hfuel ⊢
        obtain ⟨con, ticks⟩ := now
        dsimp only at hfuel ⊢
        rcases getchar_cases con with ⟨hempty, hget⟩ | ⟨con', c, hget, hleft⟩
        · -- it waits for a key
          rw [hget, hempty]
          refine ⟨[], .nil, nofun, ?_⟩
          rwa [edited, List.foldl_nil, length_lineOf]
        rw [hleft, List.length_cons] at hfuel
        rw [hget, Exec.ret_bind, hleft]
        dsimp only
        by_cases hends : endsLine c
        · exact afterKey_end fuel con' ticks hroom hmax hends
        by_cases hesc : c = 27
        · -- what is dropped behind an escape belongs to it
          subst hesc
          obtain ⟨skip, hskip, hskipped⟩ := skipEscape_skips con' ticks
          have hlen := congrArg List.length hskip
          rw [List.length_append] at hlen
          have hpart : KeysOf (27 :: skip) [27] := by
            rw [← List.append_nil (27 :: skip)]
            exact .escape hskipped .nil
          have h := ih (skipEscape con' ticks).1 (skipEscape con' ticks).2 buf i (by omega) hi
          rw [← hskip, ← List.cons_append]
          exact h.cons hpart hends fun _ _ => rfl
        · obtain ⟨con'', buf', j, hloop, hkeys, hj, hkept, hline⟩ :=
            @afterKey_edit count buf i c fuel con' ticks hroom hends hesc
          have hsame := keysLeft_of_same hkeys
          have h := ih con'' ticks buf' j (by rw [hsame]; omega) hj
          rw [hsame, hline, ← show editKey (lineOf buf i) c = _ from if_neg hesc] at h
          rw [hloop]
          exact h.cons (.key hesc .nil) hends hkept
      · rw [if_neg hroom]
        have hfull : i = count - 1 := by omega
        have hdone : Finished count (lineOf buf i) [] (edited (lineOf buf i) []) :=
          .full nofun (by rw [← hfull]; exact length_lineOf buf i)
        exact readsLine_endLine rfl .nil (by omega) (by omega) hmax (fun _ _ => rfl) hdone

/-! ## No keys but those that are waited for -/

theorem skipSequence_nil (fuel : Nat) (con : Console) (h : con.typed.length < fuel) :
    skipSequence fuel con [] = ({ con with typed := dropSequence con.typed }, []) := by
  induction fuel generalizing con with
  | zero => exact absurd h (Nat.not_lt_zero _)
  | succ fuel ih =>
      rw [skipSequence, meanwhile]
      dsimp only
      cases htyped : con.typed with
      | nil =>
          dsimp only
          rw [dropSequence, ← htyped]
      | cons c rest =>
          rw [htyped, List.length_cons] at h
          dsimp only
          rw [dropSequence]
          by_cases hends : endsSequence c = true
          · rw [if_pos hends, if_pos (by simpa [endsSequence] using hends)]
          · rw [if_neg hends, if_neg (by simpa [endsSequence] using hends),
              ih _ (Nat.lt_of_succ_lt_succ h)]

theorem skipEscape_nil (con : Console) :
    skipEscape con [] = ({ con with typed := dropEscape con.typed }, []) := by
  rw [skipEscape, meanwhile]
  dsimp only
  cases htyped : con.typed with
  | nil =>
      dsimp only
      rw [dropEscape, ← htyped]
  | cons c rest =>
      dsimp only
      rw [dropEscape]
      split
      · exact skipSequence_nil _ _ (show rest.length < _ by omega)
      · rfl

/-- When no keys arrive but while somebody waits for them, this is the loop of
`LiteBSD.Files.Console`. -/
theorem timedLoop_nil (count fuel : Nat) (con : Console) (buf : Nat → UInt8) (i : Nat) :
    timedLoop count fuel con [] buf i = cookedLoop count fuel con buf i := by
  induction fuel generalizing con buf i with
  | zero => rfl
  | succ fuel ih =>
      unfold timedLoop cookedLoop
      simp only [meanwhile, skipEscape_nil, ih]

/-! ## The whole read -/

/-- A buffer of one byte is full before a key has been read. -/
theorem timedRead_one (con : Console) (ticks : List Nat) (buf : Nat → UInt8) :
    timedRead con ticks buf 1 = .ret (con, Function.update buf 0 0, 0) := rfl

theorem not_readsLine_one (con : Console) (ticks : List Nat) (buf : Nat → UInt8) :
    ¬ReadsLine 1 (keysLeft con) [] buf (timedRead con ticks buf 1) := by
  rw [timedRead_one]
  rintro ⟨_, taken, keys, htaken, hkeys, hresult⟩
  have hempty : taken = [] := by
    have hlen := congrArg List.length htaken
    rw [List.length_append] at hlen
    exact List.eq_nil_of_length_eq_zero (by omega)
  subst hempty
  cases hkeys
  rcases hresult with ⟨_, hnone⟩ | ⟨hne, _⟩
  · generalize hkeys : ([] : List UInt8) = keys at hnone
    cases hnone with
    | eof _ _ => exact absurd hkeys (by simp)
    | cancel _ => exact absurd hkeys (by simp)
  · exact hne rfl

/-- For every keyboard stream, in whatever bursts it comes, and every buffer: a
canonical read returns 0 for `^D` on an empty line and for `^C` only, and the
bytes of the edited line otherwise, as many as fit; it writes inside of the
buffer, and waits only for want of keys.  This is so for every count from 1
on but 1 itself. -/
theorem canonical_read_iff (con : Console) (ticks : List Nat) (buf : Nat → UInt8) {count : Nat}
    (hcount : 1 ≤ count ∧ count < 4294967296) :
    ReadsLine count (keysLeft con) [] buf (timedRead con ticks buf count) ↔ count ≠ 1 := by
  constructor
  · rintro h rfl
    exact not_readsLine_one con ticks buf h
  · intro hne
    have hfuel : (keysLeft con).length < con.typed.length + con.coming.length + 1 := by
      rw [keysLeft, List.length_append]
      omega
    exact timedLoop_reads (by omega) hcount.2 _ con ticks buf 0 hfuel (Nat.zero_le _)

/-- `a`, `b`, an arrow key that comes in two parts, DEL and ENTER. -/
def typist : Console :=
  { canonical := true, echo := true, vmin := 1, typed := [97, 98, 27, 91], coming := [65, 127, 10]
    out := [] }

/-- The line is `a`. -/
theorem typist_reads : ReadsLine 8 (keysLeft typist) [] (fun _ => 0)
    (timedRead typist [0, 0, 0, 0, 1] (fun _ => 0) 8) :=
  (canonical_read_iff typist _ _ (by decide)).mpr (by decide)

/-- With a count of 1 there is nothing, and nothing has been read. -/
theorem one_byte_reads_nothing : ¬∀ (con : Console) (ticks : List Nat) (buf : Nat → UInt8)
    (count : Nat), con.canonical = true → 1 ≤ count → count < 4294967296 →
      ReadsLine count (keysLeft con) [] buf (timedRead con ticks buf count) := by
  intro hall
  exact not_readsLine_one typist [] (fun _ => 0) (hall typist [] _ 1 rfl (by decide) (by decide))

end LiteBSD.Files
