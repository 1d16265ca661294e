/-
# `LiteBSD.Keyboard.Modifiers` — the flags of Shift, Ctrl and Alt, and the keys that are held

There are two Shift keys, two Ctrl keys and two Alt keys, and one flag for
each pair, which is to be 1 as long as one of the two is held.  The handler
sets it when one of them is pressed and clears it when ONE of them is
released; so if both are held and one is let go, the flag no longer says what
the other key does.  As long as this does not happen the flags are right
(`flags_iff`), in whatever order keys are pressed, repeated and released.

What the keyboard sends is described from its side.  The keys have the codes
of `Key`; `Typing` knows which are held and which bytes of the last scancode
have not been fetched yet.  The codes that a keyboard puts around those of the
grey keys, to undo Shift for old programs, are `fakeShift`.  Pause has one
long code, which it sends on being pressed only, and a short one with Ctrl
(`E0 46 E0 C6`, pressed and released at once).
-/
import LiteBSD.Lib.Runs
import LiteBSD.Keyboard.Model

namespace LiteBSD.Keyboard

open Lib

/-- The keys, by their codes, without and with `E0`. -/
inductive Key where
  | plain (code : UInt8)
  | extended (code : UInt8)
deriving DecidableEq, Repr

def Key.code : Key → UInt8
  | .plain code => code
  | .extended code => code

/-- The code has seven bits; and no code would be released with a byte that
is the prefix `E0` or `E1`. -/
def Key.valid (k : Key) : Prop := k.code < 128 ∧ k.code ≠ 0x60 ∧ k.code ≠ 0x61

instance : DecidablePred Key.valid := fun k =>
  inferInstanceAs (Decidable (k.code < 128 ∧ k.code ≠ 0x60 ∧ k.code ≠ 0x61))

/-- The last byte of what is sent for a key. -/
def scancodeOf (code : UInt8) (down : Bool) : UInt8 := if down then code else code ||| 0x80

/-- What is sent when a key is pressed or repeated (`down`), and when it is
released. -/
def Key.bytes (k : Key) (down : Bool) : List UInt8 :=
  match k with
  | .plain code => [scancodeOf code down]
  | .extended code => [0xE0, scancodeOf code down]

/-- What is sent for Pause. -/
def pauseBytes : List UInt8 := [0xE1, 0x1D, 0x45, 0xE1, 0x9D, 0xC5]

inductive Modifier where
  | shift
  | ctrl
  | alt
deriving DecidableEq, Repr

/-- The left and the right key. -/
def Modifier.keys : Modifier → List Key
  | .shift => [.plain 0x2A, .plain 0x36]
  | .ctrl => [.plain 0x1D, .extended 0x1D]
  | .alt => [.plain 0x38, .extended 0x38]

/-- The flag of a modifier. -/
def Modifiers.flag (m : Modifiers) : Modifier → Nat
  | .shift => m.shiftDown
  | .ctrl => m.ctrlDown
  | .alt => m.altDown

/-- A keyboard with somebody at it, and its driver. -/
structure Typing where
  kb : Statics
  held : Key → Bool
  /-- the bytes that are still to be fetched -/
  coming : List UInt8
  /-- the byte that was fetched last -/
  last : Option UInt8

/-- Nothing is pressed, and `keyboard_init` has run. -/
def atRest (kb : Statics) : Typing where
  kb := keyboardInit kb
  held := fun _ => false
  coming := []
  last := none

inductive Event where
  | press (k : Key)
  | again (k : Key)
  | release (k : Key)
  | fakeShift (k : Key) (down : Bool)
  | pause
  | interrupt
  | reader (ring : KeyRing)

/-- What can happen.  A scancode is sent when the last one has been fetched. -/
inductive Happens : Typing → Event → Typing → Prop
  | press {st : Typing} {k : Key} : st.coming = [] → k.valid → st.held k = false →
      Happens st (.press k)
        { st with held := Function.update st.held k true, coming := k.bytes true }
  | again {st : Typing} {k : Key} : st.coming = [] → k.valid → st.held k = true →
      Happens st (.again k) { st with coming := k.bytes true }
  | release {st : Typing} {k : Key} : st.coming = [] → k.valid → st.held k = true →
      Happens st (.release k)
        { st with held := Function.update st.held k false, coming := k.bytes false }
  | fakeShift {st : Typing} {k : Key} {down : Bool} : st.coming = [] →
      k = .extended 0x2A ∨ k = .extended 0x36 →
      Happens st (.fakeShift k down) { st with coming := k.bytes down }
  | pause {st : Typing} : st.coming = [] → (∀ k ∈ Modifier.ctrl.keys, st.held k = false) →
      Happens st .pause { st with coming := pauseBytes }
  | interrupt {st : Typing} {b : UInt8} {rest : List UInt8} : st.coming = b :: rest →
      Happens st .interrupt
        { st with kb := keyboardHandler st.kb b, coming := rest, last := some b }
  | reader {st : Typing} {ring : KeyRing} :
      Happens st (.reader ring) { st with kb := { st.kb with ring := ring } }

def typingSystem : System Typing Event where
  init st := ∃ kb, st = atRest kb
  step := Happens

/-- The state of the driver once the bytes have been fetched. -/
def fetch (kb : Statics) (bytes : List UInt8) : Statics := bytes.foldl keyboardHandler kb

/-- Each flag is 1 if one of its keys is held, and only then. -/
def Follows (m : Modifiers) (held : Key → Bool) : Prop :=
  ∀ d : Modifier, m.flag d = 1 ↔ ∃ k ∈ d.keys, held k = true

/-- `e0_prefix` is 1 behind an `E0` only, and the flags are right when the
scancode that is coming is complete. -/
def FlagsRight (st : Typing) : Prop :=
  (st.kb.mods.e0Prefix = 1 ↔ st.last = some 0xE0) ∧ Follows (fetch st.kb st.coming).mods st.held

/-- If a key is released, the other one of its pair is not held. -/
def TwinUp (st : Typing) (e : Event) : Prop :=
  ∀ k, e = .release k → ∀ d : Modifier, k ∈ d.keys → ∀ k' ∈ d.keys, k' ≠ k → st.held k' = false

/-! ## Bytes -/

theorem scancodeOf_bits {code : UInt8} (h : code < 128) (down : Bool) :
    scancodeOf code down &&& 0x7F = code ∧ (scancodeOf code down &&& 0x80 = 0 ↔ down = true) := by
  have hbits : ∀ b : BitVec 8, b < 128 →
      b &&& 0x7F = b ∧ b &&& 0x80 = 0 ∧ (b ||| 0x80) &&& 0x7F = b ∧ (b ||| 0x80) &&& 0x80 ≠ 0 := by
    decide
  obtain ⟨hlow, hhigh, hlow', hhigh'⟩ := hbits code.toBitVec h
  cases down with
  | false =>
      refine ⟨UInt8.toBitVec_inj.mp hlow', ?_⟩
      exact iff_of_false (fun he => hhigh' (UInt8.toBitVec_inj.mpr he)) Bool.false_ne_true
  | true => exact ⟨UInt8.toBitVec_inj.mp hlow, iff_of_true (UInt8.toBitVec_inj.mp hhigh) rfl⟩

/-- A byte without the high bit. -/
theorem and_low {scancode : UInt8} (h : scancode &&& 0x80 = 0) : scancode &&& 0x7F = scancode := by
  have hbits : ∀ b : BitVec 8, b &&& 0x80 = 0 → b &&& 0x7F = b := by decide
  exact UInt8.toBitVec_inj.mp (hbits scancode.toBitVec (UInt8.toBitVec_inj.mpr h))

theorem scancodeOf_ne_prefix {k : Key} (hk : k.code < 128) (hne : k.code ≠ 0x60) (down : Bool) :
    scancodeOf k.code down ≠ 0xE0 := by
  intro he
  have hlow := (scancodeOf_bits hk down).1
  rw [he] at hlow
  exact hne hlow.symm

/-! ## One interrupt -/

section Interrupt

variable (kb : Statics) (scancode : UInt8) (d : Modifier)

/-- The key that a byte is about. -/
def keyOf (m : Modifiers) (scancode : UInt8) : Key :=
  if m.e0Prefix ≠ 0 then .extended (scancode &&& 0x7F) else .plain (scancode &&& 0x7F)

variable {kb} in
/-- Queueing changes no flag. -/
theorem Queues.mods {kb' : Statics} (h : Queues kb kb') : kb'.mods = kb.mods := by
  obtain ⟨s, rfl⟩ := h
  rfl

theorem flag_extendedKey : (extendedKey kb scancode).mods.flag d =
    if Key.extended (scancode &&& 0x7F) ∈ d.keys then if scancode &&& 0x80 = 0 then 1 else 0
    else kb.mods.flag d := by
  have hnav := (queues_handleNavKey kb scancode).mods
  unfold extendedKey
  by_cases hup : scancode &&& 0x80 = 0
  · rw [and_low hup, if_neg (not_not_intro hup), if_pos hup]
    cases d <;> grind [Modifier.keys, Modifiers.flag, queueChar]
  · rw [if_pos hup, if_neg hup]
    cases d <;> grind [Modifier.keys, Modifiers.flag]

theorem flag_normalKey : (normalKey kb scancode).mods.flag d =
    if Key.plain (scancode &&& 0x7F) ∈ d.keys then if scancode &&& 0x80 = 0 then 1 else 0
    else kb.mods.flag d := by
  have hpressed := (queues_pressedKey kb scancode).mods
  unfold normalKey
  by_cases hup : scancode &&& 0x80 = 0
  · rw [and_low hup, if_neg (not_not_intro hup), if_pos hup]
    cases d <;> grind [Modifier.keys, Modifiers.flag]
  · rw [if_pos hup, if_neg hup]
    cases d <;> grind [Modifier.keys, Modifiers.flag]

/-- A byte that is no prefix sets or clears the flag of its key. -/
theorem flag_keyboardHandler : (keyboardHandler kb scancode).mods.flag d =
    if scancode ≠ 0xE0 ∧ keyOf kb.mods scancode ∈ d.keys then
      if scancode &&& 0x80 = 0 then 1 else 0
    else kb.mods.flag d := by
  unfold keyboardHandler keyOf
  by_cases hprefix : scancode = 0xE0
  · rw [if_pos hprefix, if_neg fun h => h.1 hprefix]
    cases d <;> rfl
  rw [if_neg hprefix]
  simp only [ne_eq, hprefix, not_false_eq_true, true_and]
  by_cases hbehind : kb.mods.e0Prefix = 0
  · simp only [hbehind, not_true_eq_false, if_false]
    exact flag_normalKey kb scancode d
  · simp only [hbehind, not_false_eq_true, if_true]
    rw [flag_extendedKey]
    cases d <;> rfl

theorem e0Prefix_keyboardHandler :
    (keyboardHandler kb scancode).mods.e0Prefix = if scancode = 0xE0 then 1 else 0 := by
  have hnav := (queues_handleNavKey { kb with mods.e0Prefix := 0 } scancode).mods
  have hpressed := (queues_pressedKey kb scancode).mods
  unfold keyboardHandler extendedKey normalKey
  grind [queueChar]

end Interrupt

/-! ## A scancode -/

section Scancodes

variable {kb kb' : Statics} {k : Key} {d : Modifier}

theorem fetch_append (kb : Statics) (l l' : List UInt8) : fetch kb (l ++ l') = fetch (fetch kb l) l' :=
  List.foldl_append

/-- The flags, and what the next byte is about. -/
structure SameFlags (kb kb' : Statics) : Prop where
  flag : ∀ d, kb.mods.flag d = kb'.mods.flag d
  behind : kb.mods.e0Prefix = kb'.mods.e0Prefix

/-- The flags do not depend on what is in the ring. -/
theorem SameFlags.fetch (h : SameFlags kb kb') (bytes : List UInt8) :
    SameFlags (fetch kb bytes) (fetch kb' bytes) := by
  induction bytes generalizing kb kb' with
  | nil => exact h
  | cons b bytes ih =>
      refine ih ⟨fun d => ?_, ?_⟩
      · have hkey : keyOf kb.mods b = keyOf kb'.mods b := by
          unfold keyOf
          rw [h.behind]
        rw [flag_keyboardHandler, flag_keyboardHandler, hkey, h.flag d]
      · rw [e0Prefix_keyboardHandler, e0Prefix_keyboardHandler]

/-- The bytes of a key set or clear its flag. -/
theorem flag_fetch (hk : k.code < 128) (hne : k.code ≠ 0x60) (h0 : kb.mods.e0Prefix = 0)
    (down : Bool) : (fetch kb (k.bytes down)).mods.flag d =
      if k ∈ d.keys then if down then 1 else 0 else kb.mods.flag d := by
  obtain ⟨hlow, hhigh⟩ := scancodeOf_bits hk down
  have hprefix := scancodeOf_ne_prefix hk hne down
  cases k with
  | plain code =>
      show (keyboardHandler kb (scancodeOf code down)).mods.flag d = _
      rw [flag_keyboardHandler, keyOf, if_neg (not_not_intro h0)]
      simp only [Key.code] at hlow hhigh hprefix
      simp only [hlow, hhigh, ne_eq, hprefix, not_false_eq_true, true_and]
  | extended code =>
      show (keyboardHandler (keyboardHandler kb 0xE0) (scancodeOf code down)).mods.flag d = _
      have hbehind : (keyboardHandler kb 0xE0).mods.e0Prefix ≠ 0 := by
        rw [e0Prefix_keyboardHandler]
        decide
      rw [flag_keyboardHandler, keyOf, if_pos hbehind, flag_keyboardHandler]
      simp only [Key.code] at hlow hhigh hprefix
      simp only [hlow, hhigh, ne_eq, hprefix, not_false_eq_true, true_and, not_true_eq_false,
        false_and, if_false]

theorem e0Prefix_fetch (hk : k.code < 128) (hne : k.code ≠ 0x60) (kb : Statics) (down : Bool) :
    (fetch kb (k.bytes down)).mods.e0Prefix = 0 := by
  have hprefix := scancodeOf_ne_prefix hk hne down
  cases k with
  | plain code =>
      show (keyboardHandler kb (scancodeOf code down)).mods.e0Prefix = 0
      rw [e0Prefix_keyboardHandler]
      exact if_neg hprefix
  | extended code =>
      show (keyboardHandler (keyboardHandler kb 0xE0) (scancodeOf code down)).mods.e0Prefix = 0
      rw [e0Prefix_keyboardHandler]
      exact if_neg hprefix

/-- Pause is sent as Ctrl with another key, between two releases of none. -/
theorem pauseBytes_eq : pauseBytes =
    (Key.plain 0x61).bytes false ++ ((Key.plain 0x1D).bytes true ++ ((Key.plain 0x45).bytes true ++
      ((Key.plain 0x61).bytes false ++
        ((Key.plain 0x1D).bytes false ++ (Key.plain 0x45).bytes false)))) := by
  decide

theorem fetch_pause (kb : Statics) (h0 : kb.mods.e0Prefix = 0) :
    (fetch kb pauseBytes).mods.e0Prefix = 0 ∧ ∀ d, (fetch kb pauseBytes).mods.flag d =
      if d = .ctrl then 0 else kb.mods.flag d := by
  have hend (kb : Statics) (code : UInt8) (down : Bool) (hcode : code < 128) (hne : code ≠ 0x60) :=
    @e0Prefix_fetch (.plain code) hcode hne kb down
  simp only [pauseBytes_eq, fetch_append]
  refine ⟨hend _ _ _ (by decide) (by decide), fun d => ?_⟩
  rw [flag_fetch (by decide) (by decide) (hend _ _ _ (by decide) (by decide)),
    flag_fetch (by decide) (by decide) (hend _ _ _ (by decide) (by decide)),
    flag_fetch (by decide) (by decide) (hend _ _ _ (by decide) (by decide)),
    flag_fetch (by decide) (by decide) (hend _ _ _ (by decide) (by decide)),
    flag_fetch (by decide) (by decide) (hend _ _ _ (by decide) (by decide)),
    flag_fetch (by decide) (by decide) h0]
  cases d <;> rfl

end Scancodes

/-! ## Runs -/

section Runs

variable {st st' : Typing} {e : Event}

/-- What a state of a run is like, as long as nothing has gone wrong. -/
structure TypingInv (st : Typing) : Prop where
  behind : st.kb.mods.e0Prefix = if st.last = some 0xE0 then 1 else 0
  complete : (fetch st.kb st.coming).mods.e0Prefix = 0
  follows : Follows (fetch st.kb st.coming).mods st.held

theorem typingInv_atRest (kb : Statics) : TypingInv (atRest kb) where
  behind := rfl
  complete := rfl
  follows := by
    intro d
    refine iff_of_false ?_ ?_
    · cases d <;> exact Nat.zero_ne_one
    · rintro ⟨k, _, hk⟩
      exact Bool.false_ne_true hk

theorem flagsRight_iff (h : st.kb.mods.e0Prefix = if st.last = some 0xE0 then 1 else 0) :
    FlagsRight st ↔ Follows (fetch st.kb st.coming).mods st.held := by
  unfold FlagsRight
  rw [h]
  refine and_iff_right ?_
  by_cases hlast : st.last = some 0xE0
  · rw [if_pos hlast]
    exact iff_of_true rfl hlast
  · rw [if_neg hlast]
    exact iff_of_false Nat.zero_ne_one hlast

/-- One pair of keys, when `k` goes up or down: its flag goes on following
exactly if the other key is not held as `k` goes up. -/
theorem flag_follows_iff {kb : Statics} {held : Key → Bool} {k : Key} {down : Bool} {d : Modifier}
    (hk : k.code < 128) (hne : k.code ≠ 0x60) (h0 : kb.mods.e0Prefix = 0)
    (h : kb.mods.flag d = 1 ↔ ∃ k ∈ d.keys, held k = true) :
    ((fetch kb (k.bytes down)).mods.flag d = 1 ↔
        ∃ k' ∈ d.keys, Function.update held k down k' = true) ↔
      (down = false → k ∈ d.keys → ∀ k' ∈ d.keys, k' ≠ k → held k' = false) := by
  rw [flag_fetch hk hne h0]
  by_cases hmem : k ∈ d.keys
  · rw [if_pos hmem]
    cases down with
    | true =>
        have hself : ∃ k' ∈ d.keys, Function.update held k true k' = true :=
          ⟨k, hmem, Function.update_self k true held⟩
        exact iff_of_true (iff_of_true rfl hself) nofun
    | false =>
        constructor
        · intro hflag _ _ k' hk' hother
          refine Bool.eq_false_iff.mpr fun hheld => Nat.zero_ne_one (hflag.mpr ⟨k', hk', ?_⟩)
          rwa [Function.update_of_ne hother]
        · intro hup
          refine iff_of_false Nat.zero_ne_one ?_
          rintro ⟨k', hk', hheld⟩
          by_cases hsame : k' = k
          · rw [hsame, Function.update_self] at hheld
            exact Bool.false_ne_true hheld
          · rw [Function.update_of_ne hsame, hup rfl hmem k' hk' hsame] at hheld
            exact Bool.false_ne_true hheld
  · rw [if_neg hmem]
    have hothers : ∀ k' ∈ d.keys, Function.update held k down k' = held k' := by
      intro k' hk'
      refine Function.update_of_ne ?_ _ _
      rintro rfl
      exact hmem hk'
    have hsame : (∃ k' ∈ d.keys, Function.update held k down k' = true) ↔
        ∃ k' ∈ d.keys, held k' = true :=
      exists_congr fun k' => and_congr_right fun hk' => by rw [hothers k' hk']
    rw [hsame]
    exact iff_of_true h fun _ hin => absurd hin hmem

theorem follows_bytes_iff {kb : Statics} {held : Key → Bool} {k : Key} {down : Bool}
    (hk : k.valid) (h0 : kb.mods.e0Prefix = 0) (h : Follows kb.mods held) :
    Follows (fetch kb (k.bytes down)).mods (Function.update held k down) ↔
      (down = false → ∀ d : Modifier, k ∈ d.keys → ∀ k' ∈ d.keys, k' ≠ k → held k' = false) := by
  constructor
  · intro hall hdown d
    exact (flag_follows_iff hk.1 hk.2.1 h0 (h d)).mp (hall d) hdown
  · intro hup d
    exact (flag_follows_iff hk.1 hk.2.1 h0 (h d)).mpr fun hdown => hup hdown d

/-- One step keeps the invariant, if it keeps the flags following; and it does
exactly if it does not release one of two. -/
theorem TypingInv.step (h : TypingInv st) (hs : Happens st e st') :
    (Follows (fetch st'.kb st'.coming).mods st'.held ↔ TwinUp st e) ∧
      (st'.kb.mods.e0Prefix = if st'.last = some 0xE0 then 1 else 0) ∧
      (fetch st'.kb st'.coming).mods.e0Prefix = 0 := by
  have hnone (hrelease : ∀ k, e ≠ .release k) : TwinUp st e := fun k he => absurd he (hrelease k)
  have hfetched (hempty : st.coming = []) : st.kb.mods.e0Prefix = 0 ∧ Follows st.kb.mods st.held := by
    have hcomplete := h.complete
    have hfollows := h.follows
    rw [hempty] at hcomplete hfollows
    exact ⟨hcomplete, hfollows⟩
  cases hs with
  | @press k hempty hk hup =>
      obtain ⟨h0, hfollows⟩ := hfetched hempty
      refine ⟨iff_of_true ?_ (hnone nofun), h.behind, e0Prefix_fetch hk.1 hk.2.1 _ _⟩
      exact (follows_bytes_iff hk h0 hfollows).mpr nofun
  | @again k hempty hk hheld =>
      obtain ⟨h0, hfollows⟩ := hfetched hempty
      refine ⟨iff_of_true ?_ (hnone nofun), h.behind, e0Prefix_fetch hk.1 hk.2.1 _ _⟩
      have hsame : Function.update st.held k true = st.held := by
        rw [← hheld, Function.update_eq_self]
      have hkeep := (@follows_bytes_iff _ _ k true hk h0 hfollows).mpr nofun
      rwa [hsame] at hkeep
  | @release k hempty hk hheld =>
      obtain ⟨h0, hfollows⟩ := hfetched hempty
      refine ⟨(follows_bytes_iff hk h0 hfollows).trans ?_, h.behind, e0Prefix_fetch hk.1 hk.2.1 _ _⟩
      constructor
      · intro hup k' hk'
        cases hk'
        exact hup rfl
      · intro hup _
        exact hup k rfl
  | @fakeShift k down hempty hk =>
      obtain ⟨h0, hfollows⟩ := hfetched hempty
      have hcode : k.code < 128 ∧ k.code ≠ 0x60 := by
        rcases hk with rfl | rfl <;> decide
      have hno : ∀ d : Modifier, k ∉ d.keys := by
        intro d
        rcases hk with rfl | rfl <;> cases d <;> decide
      refine ⟨iff_of_true ?_ (hnone nofun), h.behind, e0Prefix_fetch hcode.1 hcode.2 _ _⟩
      intro d
      show (fetch st.kb (k.bytes down)).mods.flag d = 1 ↔ _
      rw [flag_fetch hcode.1 hcode.2 h0, if_neg (hno d)]
      exact hfollows d
  | pause hempty hctrl =>
      obtain ⟨h0, hfollows⟩ := hfetched hempty
      obtain ⟨hcomplete, hflag⟩ := fetch_pause st.kb h0
      refine ⟨iff_of_true ?_ (hnone nofun), h.behind, hcomplete⟩
      intro d
      show (fetch st.kb pauseBytes).mods.flag d = 1 ↔ _
      rw [hflag]
      by_cases hd : d = .ctrl
      · rw [if_pos hd]
        refine iff_of_false Nat.zero_ne_one ?_
        rintro ⟨k, hk, hheld⟩
        subst hd
        exact Bool.false_ne_true ((hctrl k hk).symm.trans hheld)
      · rw [if_neg hd]
        exact hfollows d
  | @interrupt b rest hcoming =>
      have hcomplete := h.complete
      have hfollows := h.follows
      rw [hcoming] at hcomplete hfollows
      refine ⟨iff_of_true hfollows (hnone nofun), ?_, hcomplete⟩
      rw [e0Prefix_keyboardHandler]
      simp only [Option.some.injEq]
  | @reader ring =>
      have hsame : SameFlags { st.kb with ring := ring } st.kb := ⟨fun d => by cases d <;> rfl, rfl⟩
      have hfetch := hsame.fetch st.coming
      refine ⟨iff_of_true ?_ (hnone nofun), h.behind, hfetch.behind.trans h.complete⟩
      intro d
      rw [hfetch.flag d]
      exact h.follows d

/-- In every run from the boot on, whatever is pressed, repeated and released
in which order, and whoever reads the ring meanwhile: `e0_prefix` is 1 exactly
behind `E0`, and the flags follow the keys, exactly if no key of a pair is
released while the other one is held. -/
theorem flags_iff {tr : List (Typing × Event × Typing)} (h : typingSystem.Trace tr st) :
    (∀ x ∈ tr, FlagsRight x.2.2) ↔ ∀ x ∈ tr, TwinUp x.1 x.2.1 := by
  refine System.Trace.good_iff_guarded (I := TypingInv) (P := fun _ _ st' => FlagsRight st')
    ?_ ?_ ?_ h
  · rintro _ ⟨kb, rfl⟩
    exact typingInv_atRest kb
  · intro st e st' hinv hup hs
    obtain ⟨hfollows, hbehind, hcomplete⟩ := hinv.step hs
    exact ⟨hbehind, hcomplete, hfollows.mpr hup⟩
  · intro st e st' hinv hs
    obtain ⟨hfollows, hbehind, _⟩ := hinv.step hs
    exact (flagsRight_iff hbehind).trans hfollows

end Runs

/-! ## Left Shift, and both -/

/-- The driver before it is started. -/
def coldKeyboard : Statics where
  mods := noModifiers
  ring := ⟨fun _ => 0, 0, 0⟩

/-- Left Shift goes down and up. -/
theorem flags_of_one_shift : ∃ tr st, typingSystem.Trace tr st ∧ tr.length = 4 ∧
    ∀ x ∈ tr, FlagsRight x.2.2 := by
  have h₀ := System.Trace.nil (S := typingSystem) (s := atRest coldKeyboard) ⟨coldKeyboard, rfl⟩
  have h₁ := h₀.snoc (.press (k := .plain 0x2A) rfl (by decide) rfl)
  have h₂ := h₁.snoc (.interrupt rfl)
  have h₃ := h₂.snoc (.release (k := .plain 0x2A) rfl (by decide) rfl)
  have h₄ := h₃.snoc (.interrupt rfl)
  refine ⟨_, _, h₄, rfl, (flags_iff h₄).mpr ?_⟩
  simp only [List.forall_mem_cons, List.not_mem_nil, false_implies, implies_true, and_true]
  refine ⟨nofun, ?_, nofun, nofun⟩
  intro k hk d hd k' hk' hne
  cases hk
  exact Function.update_of_ne hne _ _

/-- Both are held and the right one is released: the flag is 0. -/
theorem flags_of_both_shifts : ¬∀ tr st, typingSystem.Trace tr st → ∀ x ∈ tr, FlagsRight x.2.2 := by
  intro hall
  have h₀ := System.Trace.nil (S := typingSystem) (s := atRest coldKeyboard) ⟨coldKeyboard, rfl⟩
  have h₁ := h₀.snoc (.press (k := .plain 0x2A) rfl (by decide) rfl)
  have h₂ := h₁.snoc (.interrupt rfl)
  have h₃ := h₂.snoc (.press (k := .plain 0x36) rfl (by decide) rfl)
  have h₄ := h₃.snoc (.interrupt rfl)
  have h₅ := h₄.snoc (.release (k := .plain 0x36) rfl (by decide) rfl)
  have h₆ := h₅.snoc (.interrupt rfl)
  have hright := (hall _ _ h₆ _ List.mem_cons_self).2 .shift
  exact Nat.zero_ne_one (hright.mpr ⟨.plain 0x2A, by decide, rfl⟩)

end LiteBSD.Keyboard
