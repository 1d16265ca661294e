/-
# `LiteBSD.Keyboard.Model` — the keyboard driver

The interrupt handler of `src/drivers/keyboard.c`: a scancode changes the
flags of the modifier keys, or puts characters into the ring, or neither.
What is taken out of the ring is in `LiteBSD.Keyboard.Queue`, as tasks do it
in several steps.

The two `scancode_*` tables end with their last entry; behind it is 0.
-/
import LiteBSD.Vfs.Path
import Mathlib.Logic.Function.Basic

namespace LiteBSD.Keyboard

/-- `key_buffer` and its two indices. -/
structure KeyRing where
  keyBuffer : Nat → UInt8
  bufferHead : Nat
  bufferTail : Nat

/-- The flags. -/
structure Modifiers where
  shiftDown : Nat
  ctrlDown : Nat
  altDown : Nat
  capsLock : Nat
  e0Prefix : Nat
deriving DecidableEq, Repr

/-- The statics of `keyboard.c`. -/
structure Statics where
  mods : Modifiers
  ring : KeyRing

def scancodeToAscii (scancode : UInt8) : UInt8 :=
  ([0, 27] ++ str "1234567890-=" ++ [8, 9] ++ str "qwertyuiop[]" ++ [10, 0] ++ str "asdfghjkl;" ++
    [39, 96, 0] ++ str "\\zxcvbnm,./" ++ [0] ++ str "*" ++ [0] ++ str " ").getD scancode.toNat 0

def scancodeShifted (scancode : UInt8) : UInt8 :=
  ([0, 0] ++ str "!@#$%^&*()_+" ++ [0, 0] ++ str "QWERTYUIOP\x7b\x7d" ++ [0, 0] ++
    str "ASDFGHJKL:\"~" ++ [0] ++ str "|ZXCVBNM<>?").getD scancode.toNat 0

/-! ## The ring -/

/-- `(x + 1) % 256` -/
def nextIndex (x : Nat) : Nat := (x + 1) % 256

def KeyRing.queueChar (r : KeyRing) (c : UInt8) : KeyRing :=
  let nextHead := nextIndex r.bufferHead
  if nextHead ≠ r.bufferTail then
    { r with keyBuffer := Function.update r.keyBuffer r.bufferHead c, bufferHead := nextHead }
  else r

def KeyRing.queueStr (r : KeyRing) (s : CStr) : KeyRing := s.foldl queueChar r

def queueChar (kb : Statics) (c : UInt8) : Statics := { kb with ring := kb.ring.queueChar c }

def queueStr (kb : Statics) (s : CStr) : Statics := { kb with ring := kb.ring.queueStr s }

/-! ## The handler -/

/-- What `handle_nav_key` queues, if the key is one of its. -/
def navString (m : Modifiers) (scancode : UInt8) : Option CStr :=
  let ctrlOr (c s : String) := some (if m.ctrlDown ≠ 0 then str c else str s)
  let arrow (c a s : String) :=
    some (if m.ctrlDown ≠ 0 then str c else if m.altDown ≠ 0 then str a else str s)
  if scancode = 0x48 then arrow "\x1b[1;5A" "\x1b[1;3A" "\x1b[A"
  else if scancode = 0x50 then arrow "\x1b[1;5B" "\x1b[1;3B" "\x1b[B"
  else if scancode = 0x4D then arrow "\x1b[1;5C" "\x1b[1;3C" "\x1b[C"
  else if scancode = 0x4B then arrow "\x1b[1;5D" "\x1b[1;3D" "\x1b[D"
  else if scancode = 0x47 then ctrlOr "\x1b[1;5H" "\x1b[H"
  else if scancode = 0x4F then ctrlOr "\x1b[1;5F" "\x1b[F"
  else if scancode = 0x49 then ctrlOr "\x1b[5;5~" "\x1b[5~"
  else if scancode = 0x51 then ctrlOr "\x1b[6;5~" "\x1b[6~"
  else if scancode = 0x52 then some (str "\x1b[2~")
  else if scancode = 0x53 then ctrlOr "\x1b[3;5~" "\x1b[3~"
  else none

/-- `handle_nav_key`, and whether the key was one of its. -/
def handleNavKey (kb : Statics) (scancode : UInt8) : Statics × Bool :=
  match navString kb.mods scancode with
  | some s => (queueStr kb s, true)
  | none => (kb, false)

/-- A scancode behind `E0`. -/
def extendedKey (kb : Statics) (scancode : UInt8) : Statics :=
  if scancode &&& 0x80 ≠ 0 then
    let code := scancode &&& 0x7F
    if code = 0x1D then { kb with mods.ctrlDown := 0 }
    else if code = 0x38 then { kb with mods.altDown := 0 }
    else kb
  else if scancode = 0x1D then { kb with mods.ctrlDown := 1 }
  else if scancode = 0x38 then { kb with mods.altDown := 1 }
  else if scancode = 0x1C then queueChar kb 10
  else if scancode = 0x35 then queueChar kb slash
  else (handleNavKey kb scancode).1

def isLower (c : UInt8) : Bool := 'a'.toUInt8 ≤ c ∧ c ≤ 'z'.toUInt8

def isUpper (c : UInt8) : Bool := 'A'.toUInt8 ≤ c ∧ c ≤ 'Z'.toUInt8

/-- The character of a key, with Shift and Caps Lock. -/
def shiftedChar (m : Modifiers) (scancode : UInt8) : UInt8 :=
  let c := if scancode < 128 then scancodeToAscii scancode else 0
  if isLower c then
    let effShift := m.shiftDown ^^^ m.capsLock
    if effShift ≠ 0 then c - 'a'.toUInt8 + 'A'.toUInt8 else c
  else if m.shiftDown ≠ 0 then
    if scancode < 128 ∧ scancodeShifted scancode ≠ 0 then scancodeShifted scancode else c
  else c

/-- What a character is with Ctrl, if there is a control character for it. -/
def ctrlChar (c scancode : UInt8) : Option UInt8 :=
  if isLower c then some (c - 'a'.toUInt8 + 1)
  else if isUpper c then some (c - 'A'.toUInt8 + 1)
  else if c = '@'.toUInt8 ∨ c = ' '.toUInt8 then some 0
  else if c = '['.toUInt8 then some 27
  else if c = '\\'.toUInt8 then some 28
  else if c = ']'.toUInt8 then some 29
  else if c = '^'.toUInt8 ∨ scancode = 7 then some 30
  else if c = '_'.toUInt8 ∨ c = '-'.toUInt8 ∨ scancode = 12 then some 31
  else if c = 8 then some 127
  else none

/-- A character key is pressed. -/
def characterKey (kb : Statics) (scancode : UInt8) : Statics :=
  let c := shiftedChar kb.mods scancode
  let plain := if kb.mods.altDown ≠ 0 then queueChar (queueChar kb 27) c else queueChar kb c
  if c = 0 then kb
  else if kb.mods.ctrlDown ≠ 0 then
    match ctrlChar c scancode with
    | some d => queueChar kb d
    | none => plain
  else plain

/-- A key is pressed that is no modifier. -/
def pressedKey (kb : Statics) (scancode : UInt8) : Statics :=
  let (kb, done) := handleNavKey kb scancode
  if done then kb
  else if scancode = 0x4A then queueChar kb '-'.toUInt8
  else if scancode = 0x4E then queueChar kb '+'.toUInt8
  else if scancode = 0x0F then
    if kb.mods.shiftDown ≠ 0 then queueStr kb (str "\x1b[Z") else queueChar kb 9
  else characterKey kb scancode

/-- A scancode that is not behind `E0`. -/
def normalKey (kb : Statics) (scancode : UInt8) : Statics :=
  if scancode &&& 0x80 ≠ 0 then
    let code := scancode &&& 0x7F
    if code = 0x2A ∨ code = 0x36 then { kb with mods.shiftDown := 0 }
    else if code = 0x1D then { kb with mods.ctrlDown := 0 }
    else if code = 0x38 then { kb with mods.altDown := 0 }
    else kb
  else if scancode = 0x2A ∨ scancode = 0x36 then { kb with mods.shiftDown := 1 }
  else if scancode = 0x1D then { kb with mods.ctrlDown := 1 }
  else if scancode = 0x38 then { kb with mods.altDown := 1 }
  else if scancode = 0x3A then
    { kb with mods.capsLock := if kb.mods.capsLock = 0 then 1 else 0 }
  else pressedKey kb scancode

/-- `keyboard_handler`, for the scancode that `inb` returns. -/
def keyboardHandler (kb : Statics) (scancode : UInt8) : Statics :=
  if scancode = 0xE0 then { kb with mods.e0Prefix := 1 }
  else if kb.mods.e0Prefix ≠ 0 then extendedKey { kb with mods.e0Prefix := 0 } scancode
  else normalKey kb scancode

/-- No key is down. -/
def noModifiers : Modifiers where
  shiftDown := 0
  ctrlDown := 0
  altDown := 0
  capsLock := 0
  e0Prefix := 0

def keyboardInit (kb : Statics) : Statics where
  mods := noModifiers
  ring := { kb.ring with bufferHead := 0, bufferTail := 0 }

/-! ## What an interrupt changes -/

section Handler

variable (kb : Statics) (scancode : UInt8)

/-- `kb'` is `kb` with characters queued. -/
def Queues (kb kb' : Statics) : Prop := ∃ s, kb' = queueStr kb s

variable {kb} in
theorem Queues.trans {kb' kb'' : Statics} (h : Queues kb kb') (h' : Queues kb' kb'') :
    Queues kb kb'' := by
  obtain ⟨s, rfl⟩ := h
  obtain ⟨s', rfl⟩ := h'
  refine ⟨s ++ s', ?_⟩
  unfold queueStr KeyRing.queueStr
  rw [List.foldl_append]

theorem queues_refl : Queues kb kb := ⟨[], rfl⟩

theorem queues_queueChar (c : UInt8) : Queues kb (queueChar kb c) := ⟨[c], rfl⟩

theorem queues_handleNavKey : Queues kb (handleNavKey kb scancode).1 := by
  unfold handleNavKey
  cases navString kb.mods scancode with
  | some s => exact ⟨s, rfl⟩
  | none => exact queues_refl kb

theorem queues_characterKey : Queues kb (characterKey kb scancode) := by
  have hplain : ∀ c, Queues kb
      (if kb.mods.altDown ≠ 0 then queueChar (queueChar kb 27) c else queueChar kb c) := by
    intro c
    split
    · exact (queues_queueChar kb 27).trans (queues_queueChar _ c)
    · exact queues_queueChar kb c
  unfold characterKey
  dsimp only
  split
  · exact queues_refl kb
  split
  · cases ctrlChar (shiftedChar kb.mods scancode) scancode with
    | some d => exact queues_queueChar kb d
    | none => exact hplain _
  · exact hplain _

theorem queues_pressedKey : Queues kb (pressedKey kb scancode) := by
  have hnav := queues_handleNavKey kb scancode
  unfold pressedKey
  generalize handleNavKey kb scancode = nav at hnav ⊢
  obtain ⟨kb', done⟩ := nav
  dsimp only at hnav ⊢
  refine hnav.trans ?_
  split
  · exact queues_refl kb'
  split
  · exact queues_queueChar kb' _
  split
  · exact queues_queueChar kb' _
  split
  · split
    · exact ⟨_, rfl⟩
    · exact queues_queueChar kb' _
  · exact queues_characterKey kb' scancode

theorem ring_extendedKey : ∃ s, (extendedKey kb scancode).ring = kb.ring.queueStr s := by
  have hflags (m : Modifiers) : ∃ s, ({ kb with mods := m } : Statics).ring = kb.ring.queueStr s :=
    ⟨[], rfl⟩
  unfold extendedKey
  split
  · dsimp only
    split
    · exact hflags _
    split
    · exact hflags _
    · exact hflags kb.mods
  split
  · exact hflags _
  split
  · exact hflags _
  split
  · exact ⟨[10], rfl⟩
  split
  · exact ⟨[slash], rfl⟩
  · obtain ⟨s, hs⟩ := queues_handleNavKey kb scancode
    exact ⟨s, congrArg Statics.ring hs⟩

theorem ring_normalKey : ∃ s, (normalKey kb scancode).ring = kb.ring.queueStr s := by
  have hflags (m : Modifiers) : ∃ s, ({ kb with mods := m } : Statics).ring = kb.ring.queueStr s :=
    ⟨[], rfl⟩
  unfold normalKey
  split
  · dsimp only
    split
    · exact hflags _
    split
    · exact hflags _
    split
    · exact hflags _
    · exact hflags kb.mods
  split
  · exact hflags _
  split
  · exact hflags _
  split
  · exact hflags _
  split
  · exact hflags _
  · obtain ⟨s, hs⟩ := queues_pressedKey kb scancode
    exact ⟨s, congrArg Statics.ring hs⟩

/-- An interrupt queues some characters. -/
theorem ring_keyboardHandler : ∃ s, (keyboardHandler kb scancode).ring = kb.ring.queueStr s := by
  unfold keyboardHandler
  split
  · exact ⟨[], rfl⟩
  split
  · exact ring_extendedKey { kb with mods.e0Prefix := 0 } scancode
  · exact ring_normalKey kb scancode

end Handler

end LiteBSD.Keyboard
