/-
# `LiteBSD.Exec` — how a call inside the kernel can end, and 32-bit arithmetic

A kernel function returns, or it stops the machine in `err()` (which prints
its message and halts for ever), or it never leaves one of its own loops, or
it uses memory that is not there to be used (freed, or outside a block), and
then nothing is promised.  `Exec` keeps these apart, so that "the call
returns" is a statement a theorem can make and a loop that spins is not
mistaken for a result.

`unsigned int` is 32 bits wide.  Words are naturals, and every operation
that could leave the range goes through `u32` or `sub32`, as the hardware
would reduce it.
-/

namespace LiteBSD

/-- The ways a kernel call ends. -/
inductive Exec (α : Type) where
  /-- It returns a value. -/
  | ret (a : α)
  /-- It ends in `err(msg)`. -/
  | panic (msg : String)
  /-- One of its loops does not end. -/
  | hang
  /-- It reads or writes memory it does not own. -/
  | undefined
deriving DecidableEq, Repr

namespace Exec

/-- Sequencing: only a call that returned is followed by another. -/
def bind {α β : Type} (x : Exec α) (f : α → Exec β) : Exec β :=
  match x with
  | ret a => f a
  | panic msg => panic msg
  | hang => hang
  | undefined => undefined

instance : Monad Exec where
  pure := ret
  bind := bind

@[simp] theorem pure_eq {α : Type} (a : α) : (pure a : Exec α) = ret a := rfl

@[simp] theorem ret_bind {α β : Type} (a : α) (f : α → Exec β) :
    ((ret a : Exec α) >>= f) = f a := rfl

@[simp] theorem panic_bind {α β : Type} (msg : String) (f : α → Exec β) :
    ((panic msg : Exec α) >>= f) = panic msg := rfl

@[simp] theorem hang_bind {α β : Type} (f : α → Exec β) :
    ((hang : Exec α) >>= f) = hang := rfl

@[simp] theorem undefined_bind {α β : Type} (f : α → Exec β) :
    ((undefined : Exec α) >>= f) = undefined := rfl

/-- A sequence returns when its first part does and the rest does after it. -/
theorem bind_eq_ret {α β : Type} {x : Exec α} {f : α → Exec β} {b : β} :
    (x >>= f) = ret b ↔ ∃ a, x = ret a ∧ f a = ret b := by
  cases x <;> simp

theorem ret_ne_undefined {α : Type} {a : α} : (ret a : Exec α) ≠ undefined := nofun

theorem hang_ne_undefined {α : Type} : (hang : Exec α) ≠ undefined := nofun

theorem bind_assoc {α β γ : Type} (x : Exec α) (f : α → Exec β) (g : β → Exec γ) :
    ((x >>= f) >>= g) = x >>= fun a => f a >>= g := by
  cases x <;> rfl

/-- A sequence whose later part ends hangs in its first part, or not at all. -/
theorem bind_eq_hang {α β : Type} {x : Exec α} {f : α → Exec β} (hf : ∀ a, x = ret a → f a ≠ hang) :
    (x >>= f) = hang ↔ x = hang := by
  cases x with
  | ret a => exact ⟨fun h => absurd h (hf a rfl), nofun⟩
  | panic msg => exact ⟨nofun, nofun⟩
  | hang => exact ⟨fun _ => rfl, fun _ => rfl⟩
  | undefined => exact ⟨nofun, nofun⟩

theorem bind_ends {α β : Type} {x : Exec α} {f : α → Exec β} (hx : x ≠ hang) (hf : ∀ a, x = ret a → f a ≠ hang) :
    (x >>= f) ≠ hang :=
  mt (bind_eq_hang hf).mp hx

/-- If the call returns, what it returns satisfies `Q`. -/
def Ensures {α : Type} (x : Exec α) (Q : α → Prop) : Prop :=
  ∀ a, x = ret a → Q a

theorem Ensures.ret {α : Type} {a : α} {Q : α → Prop} (h : Q a) : Ensures (ret a) Q := by
  intro b hb
  cases hb
  exact h

theorem Ensures.undefined {α : Type} {Q : α → Prop} : Ensures undefined Q := nofun

theorem Ensures.mono {α : Type} {x : Exec α} {Q Q' : α → Prop} (h : Ensures x Q)
    (hQ : ∀ a, Q a → Q' a) : Ensures x Q' :=
  fun a ha => hQ a (h a ha)

/-- The rule of sequencing. -/
theorem Ensures.bind {α β : Type} {x : Exec α} {f : α → Exec β} {P : α → Prop} {Q : β → Prop}
    (hx : Ensures x P) (hf : ∀ a, P a → Ensures (f a) Q) : Ensures (x >>= f) Q := by
  intro b hb
  obtain ⟨a, ha, hb⟩ := bind_eq_ret.mp hb
  exact hf a (hx a ha) b hb

/-- Sequencing behind a part whose result does not matter. -/
theorem Ensures.after {α β : Type} {x : Exec α} {f : α → Exec β} {Q : β → Prop}
    (hf : ∀ a, Ensures (f a) Q) : Ensures (x >>= f) Q :=
  .bind (P := fun _ => True) (fun _ _ => trivial) fun a _ => hf a

/-- The rule of the loop over a list: `I` says what holds with the rest of
the list still to come. -/
theorem Ensures.foldlM {α β : Type} {f : β → α → Exec β} (I : List α → β → Prop)
    (hstep : ∀ a rest b, I (a :: rest) b → Ensures (f b a) (I rest)) {l : List α} {b : β}
    (h : I l b) : Ensures (l.foldlM f b) (I []) := by
  induction l generalizing b with
  | nil => exact .ret h
  | cons a rest ih => exact .bind (hstep a rest b h) fun b' hb' => ih hb'

/-- The call returns something that passes the check. -/
def any {α : Type} (x : Exec α) (check : α → Bool) : Bool :=
  match x with
  | ret a => check a
  | _ => false

theorem exists_of_any {α : Type} {x : Exec α} {check : α → Bool} (h : x.any check = true) :
    ∃ a, x = ret a ∧ check a = true := by
  cases x with
  | ret a => exact ⟨a, rfl, h⟩
  | panic msg => cases h
  | hang => cases h
  | undefined => cases h

/-- The call returns, and what it returns satisfies `Q`. -/
def Returns {α : Type} (x : Exec α) (Q : α → Prop) : Prop :=
  ∃ a, x = ret a ∧ Q a

theorem Returns.ret {α : Type} {a : α} {Q : α → Prop} (h : Q a) : Returns (ret a) Q :=
  ⟨a, rfl, h⟩

theorem Returns.mono {α : Type} {x : Exec α} {Q Q' : α → Prop} (h : Returns x Q)
    (hQ : ∀ a, Q a → Q' a) : Returns x Q' :=
  let ⟨a, ha, hq⟩ := h
  ⟨a, ha, hQ a hq⟩

/-- The rule of sequencing, for calls that return. -/
theorem Returns.bind {α β : Type} {x : Exec α} {f : α → Exec β} {P : α → Prop} {Q : β → Prop}
    (hx : Returns x P) (hf : ∀ a, P a → Returns (f a) Q) : Returns (x >>= f) Q := by
  obtain ⟨a, rfl, ha⟩ := hx
  exact hf a ha

/-- The rule of the branch, for calls that return. -/
theorem Returns.ite {α : Type} {p : Prop} [Decidable p] {x y : Exec α} {Q : α → Prop} (hx : p → Returns x Q)
    (hy : ¬p → Returns y Q) : Returns (if p then x else y) Q := by
  by_cases h : p
  · rw [if_pos h]
    exact hx h
  · rw [if_neg h]
    exact hy h

/-- The rule of the loop over a list, for calls that return. -/
theorem Returns.foldlM {α β : Type} {f : β → α → Exec β} {I : β → Prop} {l : List α} {b : β}
    (hstep : ∀ a ∈ l, ∀ b, I b → Returns (f b a) I) (h : I b) : Returns (l.foldlM f b) I := by
  induction l generalizing b with
  | nil => exact .ret h
  | cons a rest ih =>
      refine .bind (hstep a List.mem_cons_self b h) fun b' hb' => ?_
      exact ih (fun c hc => hstep c (List.mem_cons_of_mem a hc)) hb'

end Exec

/-- Reduction to `unsigned int`. -/
def u32 (n : Nat) : Nat := n % 4294967296

/-- Subtraction of `unsigned int` values. -/
def sub32 (a b : Nat) : Nat := (a + 4294967296 - b) % 4294967296

/-- A word read as `int`. -/
def int32 (n : Nat) : Int :=
  if n < 2147483648 then (n : Int) else (n : Int) - 4294967296

/-- An `int` stored into a word. -/
def ofInt32 (i : Int) : Nat := (i % 4294967296).toNat

theorem u32_of_lt {n : Nat} (h : n < 4294967296) : u32 n = n :=
  Nat.mod_eq_of_lt h

theorem sub32_of_le {a b : Nat} (hba : b ≤ a) (ha : a < 4294967296) : sub32 a b = a - b := by
  unfold sub32
  omega

end LiteBSD
