/-
# `LiteBSD.Lib.Patch` — what stores do, whatever was there before

A store sets cells of a memory without a look at them.  A `Patch` says which
cells it sets and to what; one patch behind another is a patch again, which
sets the cells of both (`sets_andThen`).  That a patch stays in a region is
seen from what it does to all memories (`stays_iff`).
-/
import Mathlib.Logic.Nontrivial.Basic

namespace LiteBSD.Lib

/-- The cells that are set, and to what. -/
def Patch (α β : Type) : Type := α → Option β

namespace Patch

variable {α β : Type} {p q : Patch α β} {W : α → Prop}

/-- The memory behind the patch. -/
def on (p : Patch α β) (mem : α → β) : α → β := fun a => (p a).getD (mem a)

def Sets (p : Patch α β) (a : α) : Prop := (p a).isSome

/-- First `p`, then `q`. -/
def andThen (p q : Patch α β) : Patch α β := fun a => (q a).or (p a)

theorem on_andThen (p q : Patch α β) (mem : α → β) : (p.andThen q).on mem = q.on (p.on mem) := by
  funext a
  unfold on andThen
  cases q a <;> rfl

theorem sets_andThen {a : α} : (p.andThen q).Sets a ↔ p.Sets a ∨ q.Sets a := by
  unfold Sets andThen
  rw [Option.isSome_or, Bool.or_eq_true, or_comm]

theorem on_of_not_sets {a : α} (h : ¬p.Sets a) (mem : α → β) : p.on mem a = mem a := by
  rw [on, Option.not_isSome_iff_eq_none.mp h]
  rfl

/-- A patch changes nothing outside of `W`, in any memory, exactly if it sets
no cell outside of `W`. -/
theorem stays_iff [Nontrivial β] : (∀ mem a, ¬W a → p.on mem a = mem a) ↔ ∀ a, p.Sets a → W a := by
  constructor
  · intro h a hset
    by_contra hout
    obtain ⟨x, hx⟩ := Option.isSome_iff_exists.mp hset
    obtain ⟨y, hy⟩ := exists_ne x
    have hsame := h (fun _ => y) a hout
    rw [on, hx] at hsame
    exact hy hsame.symm
  · intro h mem a hout
    exact on_of_not_sets (fun hset => hout (h a hset)) mem

end Patch

end LiteBSD.Lib
