/-
# `LiteBSD.Execve.Stack` — the stack a new program starts on

`execve` pushes the strings from `stack_top` down, those of `argv` first and
in each vector the last one first, and puts the table of words below them, at
a multiple of 16.  So what lies on the stack, from `esp` up, is: the table, at
most 15 bytes of nothing, the strings of `envp` in their order, and those of
`argv` in theirs.

`Start` is what the startup code of a program finds at `esp`, and
`exec_stack_decodes` says that these are the two vectors, however close they
come to the budget.
-/
import LiteBSD.Execve.Model
import LiteBSD.Lib.Memory

namespace LiteBSD.Execve

open Lib

/-! ## What a program reads -/

/-- A word at the address `a`, with the stack `m` at `base`. -/
def loadWord (base : Nat) (m : Buf) (a : Nat) : Option Nat :=
  if base ≤ a ∧ a + 4 ≤ base + m.len then some (le32 (m.read (a - base) 4)) else none

/-- The words from `a` on, up to a `NULL`. -/
def loadPointers (base : Nat) (m : Buf) : Nat → Nat → Option (List Nat)
  | 0, _ => none
  | room + 1, a => do
      let w ← loadWord base m a
      if w = 0 then some []
      else
        let rest ← loadPointers base m room (a + 4)
        some (w :: rest)

/-- The string at `a`. -/
def loadString (base : Nat) (m : Buf) (a : Nat) : Option CStr :=
  if base ≤ a then m.readStr (a - base) (m.len + 1) else none

/-- `argc` and the two tables of pointers. -/
structure Start where
  argc : Nat
  argv : List Nat
  envp : List Nat
deriving DecidableEq, Repr

/-- What the startup code finds at `esp`. -/
def readStart (base : Nat) (m : Buf) (esp : Nat) : Option Start := do
  let argc ← loadWord base m esp
  let argv ← loadPointers base m m.len (esp + 4)
  let envp ← loadPointers base m m.len (esp + 4 + 4 * (argc + 1))
  some ⟨argc, argv, envp⟩

/-- Where a string with its NUL is. -/
def stringRegion (a : Nat) (s : CStr) : Region := ⟨a, s.length + 1⟩

/-- The words at `esp` and the strings, from below. -/
def stackRegions (esp : Nat) (st : Start) (args envs : List CStr) : List Region :=
  ⟨esp, 4 * (1 + (st.argv.length + 1) + (st.envp.length + 1))⟩ ::
    List.zipWith stringRegion (st.envp ++ st.argv) (envs ++ args)

/-- The stack `m` at `base` starts a program with these vectors.  The regions
are in their order, so that none overlaps another. -/
structure Decodes (base : Nat) (m : Buf) (esp : Nat) (args envs : List CStr) (st : Start) : Prop where
  aligned : 16 ∣ esp
  start : readStart base m esp = some st
  argc : st.argc = args.length
  argv : st.argv.mapM (loadString base m) = some args
  envp : st.envp.mapM (loadString base m) = some envs
  apart : (stackRegions esp st args envs).Pairwise Region.Before
  inside : ∀ r ∈ stackRegions esp st args envs, base ≤ r.start ∧ r.stop ≤ stackTop base

/-! ## Reading what is there -/

/-- The bytes of the stack, by their addresses. -/
def cells (base : Nat) (m : Buf) : Nat → UInt8 := fun a => m.byte (a - base)

section Reading

variable {base a : Nat} {m : Buf} {s : CStr} {xs : List UInt8}

theorem holdsAt_cells (ha : base ≤ a) : HoldsAt (cells base m) a xs ↔ HoldsAt m.byte (a - base) xs := by
  have hidx : ∀ i, a + i - base = a - base + i := by
    intro i
    omega
  unfold HoldsAt cells
  simp only [hidx]

theorem read_of_holdsAt {o : Nat} (h : HoldsAt m.byte o xs) : m.read o xs.length = xs := by
  refine List.ext_getElem? fun i => ?_
  unfold Buf.read
  rw [List.getElem?_map]
  rcases Nat.lt_or_ge i xs.length with hi | hi
  · rw [List.getElem?_range hi, h i hi]
    rfl
  · rw [List.getElem?_eq_none (by simpa using hi), List.getElem?_eq_none hi]
    rfl

theorem readStr_of_holdsAt {o room : Nat} (h : HoldsAt m.byte o (s ++ [0])) (hs : 0 ∉ s)
    (hlen : o + s.length < m.len) (hroom : s.length < room) : m.readStr o room = some s := by
  induction s generalizing o room with
  | nil =>
      obtain ⟨room, rfl⟩ : ∃ r, room = r + 1 := Nat.exists_eq_succ_of_ne_zero (Nat.ne_of_gt hroom)
      have hnul := (holdsAt_cons.mp h).1
      rw [List.length_nil] at hlen
      rw [Buf.readStr, if_neg (by omega), if_pos hnul]
  | cons c s ih =>
      rw [List.length_cons] at hlen hroom
      obtain ⟨room, rfl⟩ : ∃ r, room = r + 1 := Nat.exists_eq_succ_of_ne_zero (by omega)
      rw [List.cons_append] at h
      obtain ⟨hc, hrest⟩ := holdsAt_cons.mp h
      rw [List.mem_cons, not_or] at hs
      have hih : m.readStr (o + 1) room = some s := ih hrest hs.2 (by omega) (by omega)
      have hne : m.byte o ≠ 0 := fun he => hs.1 (he.symm.trans hc)
      rw [Buf.readStr, if_neg (by omega), if_neg hne, hih, hc]
      rfl

theorem loadString_of_holdsAt (ha : base ≤ a) (h : HoldsAt (cells base m) a (s ++ [0])) (hs : 0 ∉ s)
    (hlen : a + (s.length + 1) ≤ base + m.len) : loadString base m a = some s := by
  rw [loadString, if_pos ha]
  exact readStr_of_holdsAt ((holdsAt_cells ha).mp h) hs (by omega) (by omega)

theorem le32_bytes32 {w : Nat} (hw : w < 4294967296) : le32 (bytes32 w) = w := by
  have hbyte : ∀ n : Nat, n.toUInt8.toNat = n % 256 := by
    intro n
    rw [Nat.toUInt8_eq, UInt8.toNat_ofNat']
  show w.toUInt8.toNat + 256 * ((w / 256).toUInt8.toNat + 256 * ((w / 65536).toUInt8.toNat +
    256 * (w / 16777216).toUInt8.toNat)) = w
  rw [hbyte, hbyte, hbyte, hbyte]
  omega

theorem loadWord_of_holdsAt {w : Nat} (ha : base ≤ a) (h : HoldsAt (cells base m) a (bytes32 w))
    (hw : w < 4294967296) (hlen : a + 4 ≤ base + m.len) : loadWord base m a = some w := by
  have hread : m.read (a - base) 4 = bytes32 w := read_of_holdsAt ((holdsAt_cells ha).mp h)
  rw [loadWord, if_pos ⟨ha, hlen⟩, hread, le32_bytes32 hw]

theorem length_words (ws : List Nat) : (ws.flatMap bytes32).length = 4 * ws.length := by
  induction ws with
  | nil => rfl
  | cons w ws ih =>
      rw [List.flatMap_cons, List.length_append, ih, List.length_cons]
      show 4 + 4 * ws.length = _
      omega

theorem loadPointers_of_holdsAt {ptrs : List Nat} {room : Nat} (ha : base ≤ a)
    (h : HoldsAt (cells base m) a ((ptrs ++ [0]).flatMap bytes32))
    (hptrs : ∀ p ∈ ptrs, p ≠ 0 ∧ p < 4294967296) (hroom : ptrs.length < room)
    (hlen : a + 4 * (ptrs.length + 1) ≤ base + m.len) : loadPointers base m room a = some ptrs := by
  induction ptrs generalizing a room with
  | nil =>
      obtain ⟨room, rfl⟩ : ∃ r, room = r + 1 := Nat.exists_eq_succ_of_ne_zero (Nat.ne_of_gt hroom)
      rw [List.length_nil] at hlen
      have hend := loadWord_of_holdsAt (w := 0) ha h (by decide) (by omega)
      rw [loadPointers, hend]
      rfl
  | cons p ptrs ih =>
      rw [List.length_cons] at hlen hroom
      obtain ⟨room, rfl⟩ : ∃ r, room = r + 1 := Nat.exists_eq_succ_of_ne_zero (by omega)
      rw [List.cons_append, List.flatMap_cons] at h
      obtain ⟨hfirst, hrest⟩ := holdsAt_append.mp h
      obtain ⟨hne, hword⟩ := hptrs p List.mem_cons_self
      have hload := loadWord_of_holdsAt ha hfirst hword (by omega)
      have hih : loadPointers base m room (a + 4) = some ptrs :=
        ih (Nat.le_trans ha (Nat.le_add_right _ _)) hrest
          (fun q hq => hptrs q (List.mem_cons_of_mem _ hq)) (by omega) (by omega)
      rw [loadPointers, hload]
      show (if p = 0 then some [] else (loadPointers base m room (a + 4)).bind fun rest =>
        some (p :: rest)) = _
      rw [if_neg hne]
      rw [hih]
      rfl

theorem mapM_of_forall₂ {α β : Type} {f : α → Option β} {l : List α} {l' : List β}
    (h : List.Forall₂ (fun a b => f a = some b) l l') : l.mapM f = some l' := by
  induction h with
  | nil => rfl
  | cons hab _ ih =>
      rw [List.mapM_cons, hab, ih]
      rfl

end Reading

/-! ## What is put there -/

/-- A string as it is in its buffer. -/
def withNul (s : CStr) : List UInt8 := s ++ [0]

/-- `vec` stands for these strings, within the caps of `exec_copy_vec`. -/
structure Vec.Accepted (vec : Vec) (strs : List CStr) : Prop where
  count : strs.length ≤ 64
  short : ∀ s ∈ strs, s.length < execMaxStrlen
  noNul : ∀ s ∈ strs, (0 : UInt8) ∉ s
  lens : vec.entries.map KString.len = strs.map List.length
  total : vec.total = (strs.map fun s => s.length + 1).sum

section Pushing

variable {base sp : Nat} {m : Buf} {texts : List (List UInt8)} {strs args envs : List CStr}

/-- The strings of a vector end up one behind the other. -/
theorem pushStrings_eq (hbase : base + texts.flatten.length ≤ sp) (htop : sp ≤ base + m.len)
    (hsp : sp < 4294967296) :
    pushStrings base texts m sp =
      .ret (⟨m.len, overwrite m.byte (sp - texts.flatten.length - base) texts.flatten⟩,
        sp - texts.flatten.length,
        (regionsFrom (sp - texts.flatten.length) (texts.map List.length)).map Region.start) := by
  induction texts with
  | nil =>
      rw [List.flatten_nil, overwrite_nil]
      rfl
  | cons text texts ih =>
      rw [List.flatten_cons, List.length_append] at hbase ⊢
      have hih := ih (by omega)
      generalize texts.flatten = rest at *
      have hback : sub32 (sp - rest.length) text.length = sp - (text.length + rest.length) := by
        rw [sub32_of_le (by omega) (by omega)]
        omega
      have hplace : sp - rest.length - base = sp - (text.length + rest.length) - base + text.length := by
        omega
      have hnext : sp - rest.length = sp - (text.length + rest.length) + text.length := by omega
      have hroom : base ≤ sp - (text.length + rest.length) ∧
          sp - (text.length + rest.length) + text.length ≤ base + m.len := by omega
      have hwrite := overwrite_append m.byte (sp - (text.length + rest.length) - base) text rest
      rw [← hplace] at hwrite
      simp only [pushStrings, hih, Exec.ret_bind, hback, storeAt, if_pos hroom, List.map_cons, regionsFrom]
      rw [← hwrite, ← hnext]
      rfl

theorem flatten_withNul (strs : List CStr) :
    (strs.map withNul).flatten.length = (strs.map fun s => s.length + 1).sum := by
  induction strs with
  | nil => rfl
  | cons s strs ih =>
      rw [List.map_cons, List.flatten_cons, List.length_append, ih, List.map_cons, List.sum_cons, withNul,
        List.length_append, List.length_singleton]

/-- The addresses of strings from `a` on. -/
def addrsFrom (a : Nat) (strs : List CStr) : List Nat :=
  (regionsFrom a ((strs.map withNul).map List.length)).map Region.start

theorem zipWith_addrsFrom (a : Nat) (strs : List CStr) :
    List.zipWith stringRegion (addrsFrom a strs) strs =
      regionsFrom a ((strs.map withNul).map List.length) := by
  unfold addrsFrom
  induction strs generalizing a with
  | nil => rfl
  | cons s strs ih =>
      simp only [List.map_cons, regionsFrom, List.zipWith_cons_cons, ih]
      rw [stringRegion, withNul, List.length_append, List.length_singleton]

theorem length_addrsFrom (a : Nat) (strs : List CStr) : (addrsFrom a strs).length = strs.length := by
  rw [addrsFrom, List.length_map, length_regionsFrom, List.length_map, List.length_map]

theorem addrsFrom_bounds {a x : Nat} (h : x ∈ addrsFrom a strs) :
    a ≤ x ∧ x ≤ a + (strs.map withNul).flatten.length := by
  obtain ⟨r, hr, rfl⟩ := List.mem_map.mp h
  obtain ⟨hstart, hstop⟩ := regionsFrom_bounds hr
  rw [← List.length_flatten] at hstop
  exact ⟨hstart, Nat.le_trans (Nat.le_add_right _ _) hstop⟩

/-- The strings are where their addresses say. -/
theorem loadStrings {a : Nat} (ha : base ≤ a) (hnul : ∀ s ∈ strs, (0 : UInt8) ∉ s)
    (h : HoldsAt (cells base m) a (strs.map withNul).flatten)
    (hlen : a + (strs.map withNul).flatten.length ≤ base + m.len) :
    (addrsFrom a strs).mapM (loadString base m) = some strs := by
  refine mapM_of_forall₂ ?_
  unfold addrsFrom
  induction strs generalizing a with
  | nil => exact .nil
  | cons s strs ih =>
      rw [List.map_cons, List.flatten_cons] at h hlen
      rw [List.length_append, withNul, List.length_append, List.length_singleton] at hlen
      rw [List.forall_mem_cons] at hnul
      obtain ⟨hfirst, hrest⟩ := holdsAt_append.mp h
      refine .cons (loadString_of_holdsAt ha hfirst hnul.1 (by dsimp only; omega)) ?_
      have hstep : a + (withNul s).length = a + (s.length + 1) := by
        rw [withNul, List.length_append, List.length_singleton]
      rw [hstep] at hrest ⊢
      exact ih (by omega) hnul.2 hrest (by omega)

theorem pushVectors_eq {top : Nat} (htop : stackTop base = top)
    (hbase : base + (args.map withNul).flatten.length + (envs.map withNul).flatten.length ≤ top)
    (hle : top ≤ base + m.len) (hword : top < 4294967296) :
    pushVectors base m (args.map withNul) (envs.map withNul) =
      let sa := top - (args.map withNul).flatten.length
      let se := sa - (envs.map withNul).flatten.length
      .ret ⟨⟨m.len, overwrite m.byte (se - base) ((envs ++ args).map withNul).flatten⟩, se,
        addrsFrom sa args, addrsFrom se envs⟩ := by
  have hargs : pushStrings base (args.map withNul) m top = _ := pushStrings_eq (by omega) hle hword
  generalize hsa : top - (args.map withNul).flatten.length = sa at hargs
  have henvs : pushStrings base (envs.map withNul)
      ⟨m.len, overwrite m.byte (sa - base) (args.map withNul).flatten⟩ sa = _ :=
    pushStrings_eq (by omega) (by dsimp only; omega) (by omega)
  have hplace : sa - base = sa - (envs.map withNul).flatten.length - base +
      (envs.map withNul).flatten.length := by omega
  rw [hplace, overwrite_append, ← List.flatten_append, ← List.map_append, ← hplace] at henvs
  rw [pushVectors, htop, hargs]
  simp only [Exec.ret_bind]
  rw [henvs]
  rfl

end Pushing

/-! ## The stack of a new program -/

section Budget

variable {argv envv vec : Vec} {args envs strs : List CStr}

theorem Vec.Accepted.length (h : vec.Accepted strs) : vec.entries.length = strs.length := by
  have hlen := congrArg List.length h.lens
  rwa [List.length_map, List.length_map] at hlen

theorem Vec.Accepted.total_lt (h : vec.Accepted strs) : vec.total ≤ 65536 := by
  have hsum : ∀ l : List CStr, (∀ s ∈ l, s.length < 1024) →
      (l.map fun s => s.length + 1).sum ≤ l.length * 1024 := by
    intro l hl
    induction l with
    | nil => exact Nat.le_refl _
    | cons s l ih =>
        rw [List.forall_mem_cons] at hl
        have hrest := ih hl.2
        have hs := hl.1
        rw [List.map_cons, List.sum_cons, List.length_cons]
        omega
  have hle := hsum strs h.short
  have hcount := h.count
  rw [h.total]
  omega

/-- Within the caps, the sum of the budget test is what it looks like. -/
theorem budget_le (hargv : argv.Accepted args) (henvv : envv.Accepted envs)
    (hbudget : tooBig argv envv = false) :
    (args.map withNul).flatten.length + (envs.map withNul).flatten.length +
      4 * (1 + (args.length + 1) + (envs.length + 1)) + 64 ≤ 16256 := by
  have ha := hargv.total_lt
  have he := henvv.total_lt
  have hca := hargv.count
  have hce := henvv.count
  rw [flatten_withNul, flatten_withNul, ← hargv.total, ← henvv.total]
  have hword : u32 (argv.total + envv.total + nwords argv envv * 4 + 64) =
      argv.total + envv.total + (1 + (args.length + 1) + (envs.length + 1)) * 4 + 64 := by
    rw [nwords, hargv.length, henvv.length]
    exact u32_of_lt (by omega)
  have hle := of_decide_eq_false hbudget
  rw [hword] at hle
  have hmax : execStackSize - 128 = 16256 := rfl
  omega

/-- `stack_top`, less what the alignment takes. -/
theorem stackTop_bounds (place : Placement) (b : Nat) :
    place.addr b + 16305 ≤ stackTop (place.addr b) ∧ stackTop (place.addr b) ≤ place.addr b + 16320 ∧
      place.addr b + 16384 ≤ 20971520 := by
  obtain ⟨_, hend⟩ := place.inHeap b
  have hheap : heapEnd = 20971520 := rfl
  have hsize : execStackSize = 16384 := rfl
  rw [hsize, hheap] at hend
  have hword : u32 (place.addr b + 16384 - 64) = place.addr b + 16320 := u32_of_lt (by omega)
  rw [stackTop, hsize, hword]
  omega

/-- Where the words end up. -/
theorem tableAddr_bounds {base : Nat} {p : Pushed} {n : Nat}
    (hn : (1 + (p.argAddrs.length + 1) + (p.envAddrs.length + 1)) * 4 = n) (hsp : p.sp < 4294967296)
    (hroom : base + 79 + n ≤ p.sp) :
    16 ∣ tableAddr p ∧ base + 64 ≤ tableAddr p ∧ tableAddr p + n ≤ p.sp := by
  have hsub : sub32 p.sp n = p.sp - n := sub32_of_le (by omega) hsp
  rw [tableAddr, hn, hsub]
  omega

/-- The words of the table, read back. -/
theorem readStart_of_holdsAt {base esp : Nat} {m : Buf} {argAddrs envAddrs : List Nat} (hbase : base ≤ esp)
    (h : HoldsAt (cells base m) esp ((pointerTable argAddrs envAddrs).flatMap bytes32))
    (hargs : ∀ a ∈ argAddrs, a ≠ 0 ∧ a < 4294967296) (henvs : ∀ a ∈ envAddrs, a ≠ 0 ∧ a < 4294967296)
    (hlen : esp + 4 * (1 + (argAddrs.length + 1) + (envAddrs.length + 1)) ≤ base + m.len)
    (hword : base + m.len < 4294967296) :
    readStart base m esp = some ⟨argAddrs.length, argAddrs, envAddrs⟩ := by
  have htable : pointerTable argAddrs envAddrs =
      argAddrs.length :: ((argAddrs ++ [0]) ++ (envAddrs ++ [0])) := by
    rw [pointerTable, List.append_assoc, List.singleton_append]
  rw [htable, List.flatMap_cons, List.flatMap_append] at h
  obtain ⟨hargc, hrest⟩ := holdsAt_append.mp h
  obtain ⟨hargv, henvp⟩ := holdsAt_append.mp hrest
  rw [length_words, List.length_append, List.length_singleton] at henvp
  have hargc' := loadWord_of_holdsAt hbase hargc (by omega) (by omega)
  have hargv' : loadPointers base m m.len (esp + 4) = some argAddrs :=
    loadPointers_of_holdsAt (by omega) hargv hargs (by omega) (by omega)
  have henvp' : loadPointers base m m.len (esp + 4 + 4 * (argAddrs.length + 1)) = some envAddrs :=
    loadPointers_of_holdsAt (by omega) henvp henvs (by omega) (by omega)
  rw [readStart, hargc']
  show ((loadPointers base m m.len (esp + 4)).bind fun argv =>
    (loadPointers base m m.len (esp + 4 + 4 * (argAddrs.length + 1))).bind fun envp =>
      some (⟨argAddrs.length, argv, envp⟩ : Start)) = _
  rw [hargv', henvp']
  rfl

end Budget

section Decoding

variable {base esp se : Nat} {m : Buf} {args envs : List CStr}

/-- The strings from `se` on, those of `envp` first, and the table below
them. -/
theorem decodes_of_holdsAt (haligned : 16 ∣ esp) (hbase : 0 < base) (hlow : base ≤ esp)
    (hnul : ∀ s ∈ args ++ envs, (0 : UInt8) ∉ s)
    (hbelow : esp + 4 * (1 + (args.length + 1) + (envs.length + 1)) ≤ se)
    (htop : se + ((envs ++ args).map withNul).flatten.length ≤ stackTop base)
    (hlen : stackTop base ≤ base + m.len) (hword : base + m.len < 4294967296)
    (htable : HoldsAt (cells base m) esp ((pointerTable
      (addrsFrom (se + (envs.map withNul).flatten.length) args) (addrsFrom se envs)).flatMap bytes32))
    (hstrings : HoldsAt (cells base m) se ((envs ++ args).map withNul).flatten) :
    Decodes base m esp args envs ⟨args.length, addrsFrom (se + (envs.map withNul).flatten.length) args,
      addrsFrom se envs⟩ := by
  have hsplit : ((envs ++ args).map withNul).flatten =
      (envs.map withNul).flatten ++ (args.map withNul).flatten := by
    rw [List.map_append, List.flatten_append]
  rw [hsplit, List.length_append] at htop
  rw [hsplit, holdsAt_append] at hstrings
  generalize hsa : se + (envs.map withNul).flatten.length = sa at *
  have hregions : stackRegions esp ⟨args.length, addrsFrom sa args, addrsFrom se envs⟩ args envs =
      ⟨esp, 4 * (1 + (args.length + 1) + (envs.length + 1))⟩ ::
        regionsFrom se (((envs ++ args).map withNul).map List.length) := by
    rw [stackRegions, length_addrsFrom, length_addrsFrom,
      List.zipWith_append (length_addrsFrom se envs), zipWith_addrsFrom, zipWith_addrsFrom, List.map_append,
      List.map_append, regionsFrom_append, ← List.length_flatten, hsa]
  have hbounds : ∀ r ∈ regionsFrom se (((envs ++ args).map withNul).map List.length),
      se ≤ r.start ∧ r.stop ≤ stackTop base := by
    intro r hr
    obtain ⟨hstart, hstop⟩ := regionsFrom_bounds hr
    rw [← List.length_flatten, hsplit, List.length_append] at hstop
    exact ⟨hstart, by omega⟩
  have haddr : ∀ {a x : Nat} {strs : List CStr}, se ≤ a →
      a + (strs.map withNul).flatten.length ≤ stackTop base → x ∈ addrsFrom a strs →
      x ≠ 0 ∧ x < 4294967296 := by
    intro a x strs ha hend hx
    have := addrsFrom_bounds hx
    omega
  refine ⟨haligned, ?_, rfl, ?_, ?_, ?_, ?_⟩
  · have hstart := readStart_of_holdsAt hlow htable (fun a ha => haddr (by omega) (by omega) ha)
      (fun a ha => haddr (Nat.le_refl _) (by omega) ha)
      (by rw [length_addrsFrom, length_addrsFrom]; omega) hword
    rwa [length_addrsFrom] at hstart
  · exact loadStrings (by omega) (fun s hs => hnul s (List.mem_append_left _ hs)) hstrings.2 (by omega)
  · exact loadStrings (by omega) (fun s hs => hnul s (List.mem_append_right _ hs)) hstrings.1 (by omega)
  · rw [hregions, List.pairwise_cons]
    refine ⟨fun r hr => ?_, regionsFrom_pairwise _ _⟩
    exact Nat.le_trans hbelow (hbounds r hr).1
  · intro r hr
    rw [hregions, List.mem_cons] at hr
    rcases hr with rfl | hr
    · refine ⟨hlow, ?_⟩
      unfold Region.stop
      dsimp only
      omega
    · obtain ⟨hstart, hstop⟩ := hbounds r hr
      exact ⟨by omega, hstop⟩

end Decoding

section Building

variable {argv envv : Vec} {args envs : List CStr}

theorem len_write (m : Buf) (o : Nat) (src : List UInt8) : (m.write o src).len = m.len := rfl

/-- The words of a pushed stack are stored below its strings. -/
theorem writeTable_eq {base : Nat} {p : Pushed} (hlow : base ≤ tableAddr p)
    (hbelow : tableAddr p + 4 * (1 + (p.argAddrs.length + 1) + (p.envAddrs.length + 1)) ≤ p.sp)
    (hsp : p.sp ≤ base + p.stack.len) :
    ∃ m, writeTable base p = .ret m ∧ m.len = p.stack.len ∧
      HoldsAt (cells base m) (tableAddr p) ((pointerTable p.argAddrs p.envAddrs).flatMap bytes32) ∧
      ∀ xs, HoldsAt p.stack.byte (p.sp - base) xs → HoldsAt (cells base m) p.sp xs := by
  have hwords : ((pointerTable p.argAddrs p.envAddrs).flatMap bytes32).length =
      4 * (1 + (p.argAddrs.length + 1) + (p.envAddrs.length + 1)) := by
    rw [length_words, pointerTable]
    simp only [List.length_cons, List.length_append, List.length_nil]
    omega
  refine ⟨p.stack.write (tableAddr p - base) ((pointerTable p.argAddrs p.envAddrs).flatMap bytes32),
    ?_, len_write _ _ _, ?_, fun xs hxs => ?_⟩
  · rw [writeTable, storeAt, if_pos]
    rw [hwords]
    omega
  · rw [holdsAt_cells hlow]
    exact holdsAt_overwrite _ _ _
  · rw [holdsAt_cells (by omega)]
    refine HoldsAt.overwrite_apart hxs (.inr ?_)
    rw [hwords]
    omega

/-- Two accepted vectors within the budget are put on the stack without an
overflow, and a program that starts at `esp` finds them there. -/
theorem stack_decodes (place : Placement) (b : Nat) {stack : Buf} (hstack : stack.len = execStackSize)
    (hargv : argv.Accepted args) (henvv : envv.Accepted envs) (hbudget : tooBig argv envv = false) :
    ∃ p m st,
      pushVectors (place.addr b) stack (args.map withNul) (envs.map withNul) = .ret p ∧
      overflows (place.addr b) p = false ∧
      writeTable (place.addr b) p = .ret m ∧
      Decodes (place.addr b) m (tableAddr p) args envs st := by
  obtain ⟨htop, htop', hheap⟩ := stackTop_bounds place b
  have hle := budget_le hargv henvv hbudget
  have hpos : 0 < place.addr b := Nat.lt_of_le_of_lt (Nat.zero_le _) (place.inHeap b).1
  have hsize : stack.len = 16384 := hstack
  generalize place.addr b = base at htop htop' hheap hpos ⊢
  have hpush : pushVectors base stack (args.map withNul) (envs.map withNul) = _ :=
    pushVectors_eq rfl (by omega) (by omega) (by omega)
  dsimp only at hpush
  have hsa : stackTop base - (args.map withNul).flatten.length = stackTop base -
      (args.map withNul).flatten.length - (envs.map withNul).flatten.length +
        (envs.map withNul).flatten.length := by omega
  have hall : ((envs ++ args).map withNul).flatten.length =
      (envs.map withNul).flatten.length + (args.map withNul).flatten.length := by
    rw [List.map_append, List.flatten_append, List.length_append]
  generalize hse : stackTop base - (args.map withNul).flatten.length -
    (envs.map withNul).flatten.length = se at hpush hsa
  rw [hsa] at hpush
  generalize hp : Pushed.mk _ _ _ _ = p at hpush
  have hsp : p.sp = se := by rw [← hp]
  have hargs : p.argAddrs = addrsFrom (se + (envs.map withNul).flatten.length) args := by rw [← hp]
  have henvs : p.envAddrs = addrsFrom se envs := by rw [← hp]
  have hlen : p.stack.len = stack.len := by rw [← hp]
  have hholds : HoldsAt p.stack.byte (p.sp - base) ((envs ++ args).map withNul).flatten := by
    rw [← hp]
    exact holdsAt_overwrite _ _ _
  have hcount : (1 + (p.argAddrs.length + 1) + (p.envAddrs.length + 1)) * 4 =
      4 * (1 + (args.length + 1) + (envs.length + 1)) := by
    rw [hargs, henvs, length_addrsFrom, length_addrsFrom, Nat.mul_comm]
  have hroom : base + 79 + 4 * (1 + (args.length + 1) + (envs.length + 1)) ≤ p.sp := by omega
  obtain ⟨haligned, hlow, hbelow⟩ := tableAddr_bounds hcount (by omega) hroom
  have hwrite : ∃ m, writeTable base p = .ret m ∧ _ := writeTable_eq (by omega) (by omega) (by omega)
  obtain ⟨m, hm, hmlen, htable, hstrings⟩ := hwrite
  refine ⟨p, m, ⟨args.length, p.argAddrs, p.envAddrs⟩, hpush, ?_, hm, ?_⟩
  · rw [overflows, u32_of_lt (by omega)]
    exact decide_eq_false (by omega)
  · rw [hargs, henvs] at htable ⊢
    have hs := hstrings _ hholds
    rw [hsp] at hs hbelow
    refine decodes_of_holdsAt haligned hpos (by omega) (fun s hs => ?_) hbelow (by omega) (by omega)
      (by omega) htable hs
    rcases List.mem_append.mp hs with hs | hs
    · exact hargv.noNul s hs
    · exact henvv.noNul s hs

end Building

end LiteBSD.Execve
