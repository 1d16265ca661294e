/-
# `LiteBSD.Lib.Chase` — following pointers, with a bound

At each place something says that this is the end, that it leads nowhere, or
where to go on (`Hop`).  `chase` looks and goes on for so many times: it is
at the end when it SEES the end, so with `n` looks it takes `n - 1` hops at
most (`chase_eq_some`), and a way of exactly `n` hops is missed
(`chase_ends_iff`).  A place is on one way only, so a way has one end
(`Leads.end_unique`) and a circle has none.
-/
import Mathlib.Logic.Basic

namespace LiteBSD.Lib

/-- What a place says. -/
inductive Hop (α : Type) where
  | stop
  | dead
  | on (next : α)
deriving DecidableEq, Repr

/-- Look at most `fuel` times. -/
def chase {α : Type} (hop : α → Hop α) : Nat → α → Option α
  | 0, _ => none
  | fuel + 1, a =>
      match hop a with
      | .stop => some a
      | .dead => none
      | .on b => chase hop fuel b

/-- From `a` to `b` in `k` hops. -/
inductive Leads {α : Type} (hop : α → Hop α) : Nat → α → α → Prop
  | refl (a : α) : Leads hop 0 a a
  | step {k : Nat} {a b c : α} : hop a = .on b → Leads hop k b c → Leads hop (k + 1) a c

/-- `b` is the end of the way from `a`, and at most `n` hops away. -/
def EndsWithin {α : Type} (hop : α → Hop α) (n : Nat) (a b : α) : Prop :=
  ∃ k ≤ n, Leads hop k a b ∧ hop b = .stop

section Chase

variable {α : Type} {hop : α → Hop α} {k m n : Nat} {a b c : α}

/-- Ways from one place to two ends are one way. -/
theorem Leads.end_unique (h : Leads hop k a b) (hb : hop b = .stop) (h' : Leads hop m a c) (hc : hop c = .stop) :
    k = m ∧ b = c := by
  induction h generalizing m with
  | refl a =>
      cases h' with
      | refl => exact ⟨rfl, rfl⟩
      | step hon _ =>
          rw [hb] at hon
          cases hon
  | step hon _ ih =>
      cases h' with
      | refl =>
          rw [hc] at hon
          cases hon
      | step hon' hrest =>
          rw [hon] at hon'
          cases hon'
          obtain ⟨rfl, rfl⟩ := ih hb hrest
          exact ⟨rfl, rfl⟩

/-- With so many looks, one hop less. -/
theorem chase_eq_some : chase hop (n + 1) a = some b ↔ EndsWithin hop n a b := by
  induction n generalizing a with
  | zero =>
      constructor
      · intro h
        rw [chase] at h
        split at h
        · rename_i hstop
          cases h
          exact ⟨0, Nat.le_refl _, .refl _, hstop⟩
        · cases h
        · cases h
      · rintro ⟨k, hk, hleads, hstop⟩
        obtain rfl := Nat.le_zero.mp hk
        cases hleads
        rw [chase, hstop]
  | succ n ih =>
      rw [chase]
      constructor
      · intro h
        split at h
        · rename_i hstop
          cases h
          exact ⟨0, Nat.zero_le _, .refl _, hstop⟩
        · cases h
        · rename_i next hon
          obtain ⟨k, hk, hleads, hstop⟩ := ih.mp h
          exact ⟨k + 1, Nat.succ_le_succ hk, .step hon hleads, hstop⟩
      · rintro ⟨k, hk, hleads, hstop⟩
        cases hleads with
        | refl => rw [hstop]
        | step hon hrest =>
            rw [hon]
            exact ih.mpr ⟨_, Nat.le_of_succ_le_succ hk, hrest, hstop⟩

/-- `n` looks stand for `n` hops exactly where no way takes all of them. -/
theorem chase_ends_iff : (∀ b, chase hop n a = some b ↔ EndsWithin hop n a b) ↔
    ¬∃ b, Leads hop n a b ∧ hop b = .stop := by
  cases n with
  | zero =>
      constructor
      · rintro h ⟨b, hleads, hstop⟩
        have hsome := (h b).mpr ⟨0, Nat.le_refl _, hleads, hstop⟩
        cases hsome
      · intro h b
        refine ⟨nofun, ?_⟩
        rintro ⟨k, hk, hleads, hstop⟩
        obtain rfl := Nat.le_zero.mp hk
        exact absurd ⟨b, hleads, hstop⟩ h
  | succ n =>
      simp only [chase_eq_some]
      constructor
      · rintro h ⟨b, hleads, hstop⟩
        obtain ⟨k, hk, hleads', hstop'⟩ := (h b).mpr ⟨n + 1, Nat.le_refl _, hleads, hstop⟩
        obtain ⟨rfl, -⟩ := hleads.end_unique hstop hleads' hstop'
        exact absurd hk (Nat.not_succ_le_self n)
      · intro h b
        constructor
        · rintro ⟨k, hk, hend⟩
          exact ⟨k, Nat.le_succ_of_le hk, hend⟩
        · rintro ⟨k, hk, hleads, hstop⟩
          rcases Nat.lt_or_eq_of_le hk with hlt | rfl
          · exact ⟨k, Nat.le_of_lt_succ hlt, hleads, hstop⟩
          · exact absurd ⟨b, hleads, hstop⟩ h

end Chase

end LiteBSD.Lib
