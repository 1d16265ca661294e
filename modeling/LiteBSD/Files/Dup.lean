/-
# `LiteBSD.Files.Dup` — are two descriptors of one file the same?

After `dup2(old, new)` both slots hold one file, so that nothing but the
NUMBERS can tell them apart.  `sys_write` looks at 1 and 2 and `sys_read` at 0
before they look at the file; the two descriptors are interchangeable exactly
if neither call is decided by that (`dup2_interchangeable_iff`).
-/
import LiteBSD.Files.System

namespace LiteBSD.Files

open Lib

/-- Whatever is on the console, writing to and reading from the descriptors
has the same effect and the same result. -/
def Interchangeable (k : Kernel) (t a b : Nat) : Prop :=
  ∀ con : Console,
    (∀ buffer, sysWrite { k with con := con } t a buffer =
      sysWrite { k with con := con } t b buffer) ∧
    ∀ valid buf count, sysRead { k with con := con } t a valid buf count =
      sysRead { k with con := con } t b valid buf count

/-- The file of `old` is the console anyway, or both numbers are among those
the call sends there, or neither is; for writing and for reading. -/
def NumbersAgree (k : Kernel) (t old new : Nat) : Prop :=
  ((∃ f x, k.fdAt t old = some f ∧ k.file f = some x ∧ x.bare) ∨
      (old = 1 ∨ old = 2 ↔ new = 1 ∨ new = 2)) ∧
    (isConsoleFd k t old = .ret true ∨ (old = 0 ↔ new = 0))

section SameFile

variable {k : Kernel} {t fd f : Nat} {x : File}

/-- Two descriptors of one file. -/
theorem sysDup2_same {k k' : Kernel} {t old new : Nat} (hne : new ≠ old)
    (h : sysDup2 k t old new = .ret (k', (new : Int))) :
    ∃ f x, k'.fdAt t old = some f ∧ k'.fdAt t new = some f ∧ k'.file f = some x := by
  unfold sysDup2 at h
  split at h
  · rename_i hok
    obtain ⟨hold, hopen, hnew⟩ := hok
    rw [Exec.bind_eq_ret] at h
    obtain ⟨k₁, hk₁, h⟩ := h
    have hslot : k₁.fd (t, ⟨old, hold⟩) = k.fd (t, ⟨old, hold⟩) := by
      rw [releaseFd_fd hk₁, Function.update_of_ne]
      intro heq
      simp only [Prod.mk.injEq, Fin.mk.injEq, true_and] at heq
      exact hne heq.symm
    dsimp only at h
    cases hp : k₁.fd (t, ⟨old, hold⟩) with
    | none =>
        rw [hslot] at hp
        rw [Kernel.fdAt, dif_pos hold] at hopen
        exact absurd hp hopen
    | some f =>
        rw [hp] at h
        dsimp only at h
        rw [Exec.bind_eq_ret] at h
        obtain ⟨k₂, hk₂, h⟩ := h
        unfold retainFile at hk₂
        rw [Exec.bind_eq_ret] at hk₂
        obtain ⟨x, _, hk₂⟩ := hk₂
        cases hk₂
        cases h
        refine ⟨f, { x with refCount := x.refCount + 1 }, ?_, ?_, Function.update_self _ _ _⟩
        · rw [Kernel.fdAt, dif_pos hold]
          show Function.update k₁.fd (t, ⟨new, hnew⟩) (some f) (t, ⟨old, hold⟩) = some f
          rw [Function.update_of_ne, hp]
          intro heq
          simp only [Prod.mk.injEq, Fin.mk.injEq, true_and] at heq
          exact hne heq.symm
        · rw [Kernel.fdAt, dif_pos hnew]
          exact Function.update_self _ _ _
  · cases h

/-- `sys_write` on a descriptor that is open. -/
theorem sysWrite_eq (hfd : k.fdAt t fd = some f) (hx : k.file f = some x) (buf : List UInt8) :
    sysWrite k t fd (some buf) =
      if (fd = 1 ∨ fd = 2) ∨ x.bare then
        .ret ({ k with con := consoleWrite k.con buf }, int32 buf.length)
      else fileWrite k f x buf := by
  have hload : k.load f = .ret x := load_eq_ret.mpr hx
  unfold sysWrite writesConsole
  by_cases hstd : fd = 1 ∨ fd = 2
  · simp [hstd]
  · simp [hstd, hfd, hload]

/-- `sys_read` once it is known whether it goes to the console. -/
def readFrom (k : Kernel) (f : Nat) (x : File) (buf : Nat → UInt8) (count : Nat) (console : Bool) :
    Exec (Kernel × (Nat → UInt8) × Int) :=
  if console then do
    let (con, buf, r) ← consoleRead k.con buf count
    .ret ({ k with con := con }, buf, r)
  else do
    let (k, bytes, r) ← fileRead k f x count
    .ret (k, overlay bytes buf, r)

/-- `sys_read` on a descriptor that is open. -/
theorem sysRead_eq (hfd : k.fdAt t fd = some f) (hx : k.file f = some x) (buf : Nat → UInt8)
    (count : Nat) :
    sysRead k t fd true buf (count + 1) =
      readsConsole k t fd >>= readFrom k f x buf (count + 1) := by
  have hload : k.load f = .ret x := load_eq_ret.mpr hx
  unfold sysRead readFrom
  simp [hfd, hload]

/-- Writing to a file leaves the console alone. -/
theorem fileWrite_con {k' : Kernel} {buf : List UInt8} {r : Int}
    (h : fileWrite k f x buf = .ret (k', r)) : k'.con = k.con := by
  unfold fileWrite at h
  split at h
  · cases h
    rfl
  · cases h
  · split at h
    · cases h
    · rw [Exec.bind_eq_ret] at h
      obtain ⟨_, _, h⟩ := h
      cases h
      rfl
  · rw [Exec.bind_eq_ret] at h
    obtain ⟨_, _, h⟩ := h
    rw [Exec.bind_eq_ret] at h
    obtain ⟨_, _, h⟩ := h
    cases h
    rfl
  · cases h
    rfl

/-- Reading from a file leaves the console alone. -/
theorem fileRead_con {k' : Kernel} {count : Nat} {bytes : List UInt8} {r : Int}
    (h : fileRead k f x count = .ret (k', bytes, r)) : k'.con = k.con := by
  unfold fileRead at h
  split at h
  · cases h
    rfl
  · cases h
  · split at h
    · cases h
    · rw [Exec.bind_eq_ret] at h
      obtain ⟨_, _, h⟩ := h
      cases h
      rfl
  · rw [Exec.bind_eq_ret] at h
    obtain ⟨_, _, h⟩ := h
    cases h
    rfl
  · cases h
    rfl

end SameFile

section Agree

variable {k : Kernel} {t old new f : Nat} {x : File}

/-- A console in raw mode with one key typed. -/
def rawConsole : Console :=
  { canonical := false, echo := false, vmin := 0, typed := [1], coming := [], out := [] }

theorem consoleWrite_ne (con : Console) (c : UInt8) : consoleWrite con [c] ≠ con := by
  intro h
  have hout := congrArg (fun con => con.out.length) h
  simp [consoleWrite] at hout

/-- Writing tells the two apart if one number is 1 or 2 and the other is not,
unless the file is the console. -/
theorem write_same_iff (hold : k.fdAt t old = some f) (hnew : k.fdAt t new = some f)
    (hx : k.file f = some x) :
    (∀ con buffer, sysWrite { k with con := con } t new buffer =
        sysWrite { k with con := con } t old buffer) ↔
      (x.bare ∨ (old = 1 ∨ old = 2 ↔ new = 1 ∨ new = 2)) := by
  have heq (con : Console) (fd : Nat) (hfd : k.fdAt t fd = some f) (buf : List UInt8) :
      sysWrite { k with con := con } t fd (some buf) =
        if (fd = 1 ∨ fd = 2) ∨ x.bare then
          .ret ({ k with con := consoleWrite con buf }, int32 buf.length)
        else fileWrite { k with con := con } f x buf :=
    sysWrite_eq (k := { k with con := con }) hfd hx buf
  -- what goes to the console is on it, what goes to the file is not
  have hdiffer (b : UInt8) : fileWrite { k with con := k.con } f x [b] ≠
      .ret ({ k with con := consoleWrite k.con [b] }, int32 [b].length) :=
    fun h => consoleWrite_ne k.con b (fileWrite_con h)
  constructor
  · intro hsame
    have hone := hsame k.con (some [0])
    rw [heq _ _ hnew, heq _ _ hold] at hone
    by_cases hbare : x.bare
    · exact .inl hbare
    · refine .inr ?_
      simp only [hbare, or_false, Bool.false_eq_true] at hone
      by_cases ho : old = 1 ∨ old = 2 <;> by_cases hn : new = 1 ∨ new = 2
      · exact iff_of_true ho hn
      · rw [if_neg hn, if_pos ho] at hone
        exact absurd hone (hdiffer 0)
      · rw [if_pos hn, if_neg ho] at hone
        exact absurd hone.symm (hdiffer 0)
      · exact iff_of_false ho hn
  · intro hagree con buffer
    cases buffer with
    | none => rfl
    | some buf =>
        rw [heq _ _ hnew, heq _ _ hold]
        rcases hagree with hbare | hiff
        · simp [hbare]
        · simp [hiff]

/-- One key is read from the raw console. -/
theorem readFrom_console (k : Kernel) (f : Nat) (x : File) :
    readFrom { k with con := rawConsole } f x (fun _ => 0) 1 true =
      .ret ({ k with con := { rawConsole with typed := [] } }, Function.update (fun _ => 0) 0 1, 1) :=
  rfl

/-- No file gives the same, whatever it is. -/
theorem readFrom_file_ne {console : Exec Bool} (h : console ≠ .ret true) :
    (console >>= readFrom { k with con := rawConsole } f x (fun _ => 0) 1) ≠
      readFrom { k with con := rawConsole } f x (fun _ => 0) 1 true := by
  rw [readFrom_console]
  intro heq
  rw [Exec.bind_eq_ret] at heq
  obtain ⟨c, hc, heq⟩ := heq
  cases c with
  | true => exact h hc
  | false =>
      have heq : (fileRead { k with con := rawConsole } f x 1 >>= fun
          | (k, bytes, r) => .ret (k, overlay bytes fun _ => 0, r)) = .ret _ := heq
      rw [Exec.bind_eq_ret] at heq
      obtain ⟨⟨k', bytes, r⟩, hread, heq⟩ := heq
      have hcon : k'.con = rawConsole := fileRead_con hread
      have hcon' : k'.con = { rawConsole with typed := [] } := by
        rw [(Prod.mk.inj (Exec.ret.inj heq)).1]
      rw [hcon] at hcon'
      exact absurd hcon' (by decide)

/-- Reading tells the two apart if one number is 0, unless the file is the
console. -/
theorem read_same_iff (hold : k.fdAt t old = some f) (hnew : k.fdAt t new = some f)
    (hx : k.file f = some x) :
    (∀ con valid buf count, sysRead { k with con := con } t new valid buf count =
        sysRead { k with con := con } t old valid buf count) ↔
      (isConsoleFd k t old = .ret true ∨ (old = 0 ↔ new = 0)) := by
  have heq (con : Console) (fd : Nat) (hfd : k.fdAt t fd = some f) (buf : Nat → UInt8)
      (count : Nat) : sysRead { k with con := con } t fd true buf (count + 1) =
        readsConsole k t fd >>= readFrom { k with con := con } f x buf (count + 1) :=
    sysRead_eq (k := { k with con := con }) hfd hx buf count
  have hconsole : isConsoleFd k t new = isConsoleFd k t old := by
    unfold isConsoleFd
    rw [hold, hnew]
  constructor
  · intro hsame
    have hone := hsame rawConsole true (fun _ => 0) 1
    rw [heq _ _ hnew, heq _ _ hold] at hone
    by_cases hc : isConsoleFd k t old = .ret true
    · exact .inl hc
    · refine .inr ?_
      unfold readsConsole at hone
      by_cases ho : old = 0 <;> by_cases hn : new = 0
      · exact iff_of_true ho hn
      · rw [if_neg hn, if_pos ho, hconsole] at hone
        exact absurd hone (readFrom_file_ne hc)
      · rw [if_pos hn, if_neg ho] at hone
        exact absurd hone.symm (readFrom_file_ne hc)
      · exact iff_of_false ho hn
  · intro hagree con valid buf count
    cases valid with
    | false => rfl
    | true =>
        cases count with
        | zero => rfl
        | succ count =>
            rw [heq _ _ hnew, heq _ _ hold]
            unfold readsConsole
            rw [hconsole]
            rcases hagree with hc | hiff
            · simp [hc]
            · simp [hiff]

end Agree

/-- After a `dup2` to another number, the two descriptors are interchangeable
if and only if no call is decided by the number of one of them alone. -/
theorem dup2_interchangeable_iff {k k' : Kernel} {t old new : Nat} (hne : new ≠ old)
    (h : sysDup2 k t old new = .ret (k', (new : Int))) :
    Interchangeable k' t new old ↔ NumbersAgree k' t old new := by
  obtain ⟨f, x, hold, hnew, hx⟩ := sysDup2_same hne h
  have hbare : (∃ f x, k'.fdAt t old = some f ∧ k'.file f = some x ∧ x.bare) ↔ x.bare := by
    constructor
    · rintro ⟨f', x', hf', hx', hb⟩
      rw [hold, Option.some.injEq] at hf'
      rw [← hf', hx, Option.some.injEq] at hx'
      rw [hx']
      exact hb
    · intro hb
      exact ⟨f, x, hold, hx, hb⟩
  unfold Interchangeable NumbersAgree
  rw [forall_and, write_same_iff hold hnew hx, read_same_iff hold hnew hx, hbare]

/-- A task at address 1 whose descriptors 3 and 4 are the ends of a pipe. -/
def pipeKernel : Kernel :=
  { quietKernel with
    tasks := [1]
    fd := fun s => if s = (1, 3) then some 7 else if s = (1, 4) then some 8 else none
    file := fun f =>
      if f = 7 then some (pipeFile 5 0 .null) else if f = 8 then some (pipeFile 5 1 .null) else none
    pipe := fun p => if p = 5 then some ⟨⟨fun _ => 0, 0, 0, 0⟩, 1, 1, false⟩ else none }

/-- The same once the writing end is on `new`, too. -/
def dupKernel (new : Fin maxFds) : Kernel :=
  (pipeKernel.setFd 1 new (some 8)).setFile 8 { pipeFile 5 1 .null with refCount := 2 }

/-- The writing end on descriptor 5. -/
theorem dup2_of_pipe :
    sysDup2 pipeKernel 1 4 5 = .ret (dupKernel 5, (5 : Int)) ∧
      (Interchangeable (dupKernel 5) 1 5 4 ↔ NumbersAgree (dupKernel 5) 1 4 5) :=
  ⟨rfl, dup2_interchangeable_iff (k := pipeKernel) (by decide) rfl⟩

/-- The writing end on descriptor 1: what is written there goes to the
console. -/
theorem dup2_onto_stdout : ¬∀ k k' t old new, new ≠ old →
    sysDup2 k t old new = .ret (k', (new : Int)) → Interchangeable k' t new old := by
  intro hall
  have h := hall pipeKernel (dupKernel 1) 1 4 1 (by decide) rfl
  have hwrite := (h quietKernel.con).1 (some [65])
  have hcon : ∃ k r, sysWrite { dupKernel 1 with con := quietKernel.con } 1 4 (some [65]) =
      .ret (k, r) ∧ k.con.out = [] := ⟨_, _, rfl, rfl⟩
  obtain ⟨k, r, hold, hout⟩ := hcon
  rw [hold] at hwrite
  have hnew : ∃ k r, sysWrite { dupKernel 1 with con := quietKernel.con } 1 1 (some [65]) =
      .ret (k, r) ∧ k.con.out = [.char 65] := ⟨_, _, rfl, rfl⟩
  obtain ⟨k', r', hnew, hout'⟩ := hnew
  rw [hnew] at hwrite
  rw [(Prod.mk.inj (Exec.ret.inj hwrite)).1, hout] at hout'
  cases hout'

end LiteBSD.Files
