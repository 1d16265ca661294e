/-
# `LiteBSD.Lib.Relocate` — a chain of cells, moved while it is followed

Cells hold values, and some values point: `links v` says so, and at which
cell, if it is a cell that the value points at.  A walk starts at a cell,
gives it the moved value if its value points, and goes on where the OLD value
pointed at.

The walk changes what it follows, and the chain may come back to where it has
been.  It stops there, as long as a value that has been moved does not point any
more; by then it has been everywhere on the chain (`relocate_ends`).
-/
import Mathlib.Data.List.Basic
import Mathlib.Logic.Function.Basic

namespace LiteBSD.Lib

/-- Where a value leads. -/
inductive Lead (α : Type) where
  /-- It does not point. -/
  | none
  /-- It points, and not at a cell. -/
  | out
  | cell (a : α)
deriving DecidableEq

def Lead.points {α : Type} : Lead α → Prop
  | .none => False
  | _ => True

/-- The cells of the chain from `start` on. -/
inductive OnChain {α V : Type} (links : V → Lead α) (mem : α → V) (start : α) : α → Prop
  | start : OnChain links mem start start
  | next {a b : α} : OnChain links mem start a → links (mem a) = .cell b → OnChain links mem start b

section Walk

variable {α V : Type} [DecidableEq α] {links : V → Lead α} {moved : V → V} {mem mem' : α → V} {a b c start : α}

/-- The walk from the cell `a`, in so many rounds. -/
def relocate (links : V → Lead α) (moved : V → V) : Nat → α → (α → V) → Option (α → V)
  | 0, _, _ => none
  | fuel + 1, a, mem =>
      match links (mem a) with
      | .none => some mem
      | .out => some (Function.update mem a (moved (mem a)))
      | .cell b => relocate links moved fuel b (Function.update mem a (moved (mem a)))

/-- On the chain, what points has been moved; all else is as it was. -/
structure Relocated (links : V → Lead α) (moved : V → V) (start : α) (mem mem' : α → V) : Prop where
  cells : ∀ c, OnChain links mem start c → (links (mem c)).points → mem' c = moved (mem c)
  rest : ∀ c, ¬(OnChain links mem start c ∧ (links (mem c)).points) → mem' c = mem c

/-- The chain behind its first cell, once that is moved. -/
theorem onChain_moved (hmoved : ∀ v b, links v = .cell b → links (moved v) = .none) (hb : links (mem a) = .cell b) :
    OnChain links mem a c ↔ c = a ∨ OnChain links (Function.update mem a (moved (mem a))) b c := by
  have hpoint {d : α} (hd : d ≠ a) : Function.update mem a (moved (mem a)) d = mem d := Function.update_of_ne hd _ _
  constructor
  · intro h
    induction h with
    | start => exact .inl rfl
    | @next d e _ hlink ih =>
        right
        by_cases hd : d = a
        · -- the chain is back at its start
          rw [hd, hb] at hlink
          cases hlink
          exact .start
        · exact (ih.resolve_left hd).next (by rw [hpoint hd, hlink])
  · rintro (rfl | h)
    · exact .start
    · induction h with
      | start => exact OnChain.start.next hb
      | @next d e _ hlink ih =>
          by_cases hd : d = a
          · rw [hd, Function.update_self, hmoved _ b hb] at hlink
            cases hlink
          · rw [hpoint hd] at hlink
            exact ih.next hlink

/-- If `fuel` is more than there are cells on the chain that point, the walk
comes to an end, and has moved what points on the chain. -/
theorem relocate_ends (hmoved : ∀ v b, links v = .cell b → links (moved v) = .none) {cells : List α} {fuel : Nat}
    (hcells : ∀ c, OnChain links mem a c → (links (mem c)).points → c ∈ cells) (hfuel : cells.length < fuel) :
    ∃ mem', relocate links moved fuel a mem = some mem' ∧ Relocated links moved a mem mem' := by
  induction fuel generalizing a mem cells with
  | zero => exact absurd hfuel (Nat.not_lt_zero _)
  | succ fuel ih =>
      rw [relocate]
      -- the chain ends at a cell that leads to no other
      have hlast (hlink : ∀ b, links (mem a) ≠ .cell b) : ∀ c, OnChain links mem a c → c = a := by
        intro c hc
        induction hc with
        | start => rfl
        | next _ hnext ih =>
            rw [ih] at hnext
            exact absurd hnext (hlink _)
      split
      · rename_i hnone
        refine ⟨mem, rfl, fun c hc hp => ?_, fun _ _ => rfl⟩
        rw [hlast (by rw [hnone]; exact nofun) c hc, hnone] at hp
        exact absurd hp id
      · rename_i hout
        have hend := hlast (by rw [hout]; exact nofun)
        refine ⟨_, rfl, fun c hc _ => ?_, fun c hc => Function.update_of_ne ?_ _ _⟩
        · rw [hend c hc, Function.update_self]
        · rintro rfl
          exact hc ⟨.start, by rw [hout]; trivial⟩
      · rename_i b hb
        have hpoints : (links (mem a)).points := by
          rw [hb]
          trivial
        have ha := hcells a .start hpoints
        have hstill (c : α) (hp : (links (Function.update mem a (moved (mem a)) c)).points) : c ≠ a := by
          rintro rfl
          rw [Function.update_self, hmoved _ b hb] at hp
          exact hp
        have hcells' : ∀ c, OnChain links (Function.update mem a (moved (mem a))) b c →
            (links (Function.update mem a (moved (mem a)) c)).points → c ∈ cells.erase a := by
          intro c hc hp
          have hne := hstill c hp
          rw [Function.update_of_ne hne] at hp
          exact (List.mem_erase_of_ne hne).mpr (hcells c ((onChain_moved hmoved hb).mpr (.inr hc)) hp)
        have hshort : (cells.erase a).length < fuel := by
          have hpos := List.length_pos_of_mem ha
          rw [List.length_erase_of_mem ha]
          omega
        obtain ⟨mem', hmem', hrel⟩ := ih hcells' hshort
        refine ⟨mem', hmem', fun c hc hp => ?_, fun c hc => ?_⟩
        · by_cases hca : c = a
          · rw [hca, hrel.rest a fun h => hstill a h.2 rfl, Function.update_self]
          · have hbehind := ((onChain_moved hmoved hb).mp hc).resolve_left hca
            have hsame : Function.update mem a (moved (mem a)) c = mem c := Function.update_of_ne hca _ _
            rw [← hsame]
            exact hrel.cells c hbehind (hsame.symm ▸ hp)
        · have hca : c ≠ a := fun h => hc ⟨h ▸ .start, h ▸ hpoints⟩
          have hsame : Function.update mem a (moved (mem a)) c = mem c := Function.update_of_ne hca _ _
          rw [← hsame]
          exact hrel.rest c fun h => hc ⟨(onChain_moved hmoved hb).mpr (.inr h.1), hsame ▸ h.2⟩

end Walk

end LiteBSD.Lib
