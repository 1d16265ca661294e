/-
# `LiteBSD.Lib.Network` — parties that share a medium

Parties act one at a time, each on a state of its own, and what one of them
puts on the medium stays there: anybody may find it, any number of times, in
any order, or never.  So a medium that loses, repeats or reorders messages
needs no steps of its own, and neither does one that everybody listens to.

The rule is one of assumption and guarantee (`Network.guarantee`).  A party may
rely on what is promised of every message on the medium, and has to keep the
promise for its own.  Both may speak of the medium, as long as they stay true
when it grows: what they say of it is that something has been sent.
-/
import LiteBSD.Lib.Runs
import Mathlib.Logic.Function.Basic
import Mathlib.Data.List.Basic

namespace LiteBSD.Lib

/-- What a party may start from, when it may take a step, and what it does
then: its next state, and what it puts on the medium. -/
structure Network (ι σ ε μ : Type) where
  init : ι → σ → Prop
  enabled : List (ι × μ) → ι → σ → ε → Prop
  step : ι → σ → ε → σ × List μ

/-- The parties, and every message so far with its sender. -/
structure World (ι σ μ : Type) where
  party : ι → σ
  medium : List (ι × μ)

namespace Network

variable {ι σ ε μ : Type} [DecidableEq ι]

/-- The party `i` takes a step. -/
def act (N : Network ι σ ε μ) (w : World ι σ μ) (i : ι) (e : ε) : World ι σ μ where
  party := Function.update w.party i (N.step i (w.party i) e).1
  medium := w.medium ++ (N.step i (w.party i) e).2.map fun x => (i, x)

/-- The parties as one system: any of them may take the next step. -/
def system (N : Network ι σ ε μ) : System (World ι σ μ) (ι × ε) where
  init := fun w => (∀ i, N.init i (w.party i)) ∧ w.medium = []
  step := fun w e w' => N.enabled w.medium e.1 (w.party e.1) e.2 ∧ w' = N.act w e.1 e.2

/-- What the parties know of themselves and promise of what they send, where
nothing that is sent makes it false. -/
structure Contract (ι σ μ : Type) where
  party : List (ι × μ) → ι → σ → Prop
  message : List (ι × μ) → ι → μ → Prop
  party_mono : ∀ {J J' i s}, J ⊆ J' → party J i s → party J' i s
  message_mono : ∀ {J J' i x}, J ⊆ J' → message J i x → message J' i x

/-- The contract holds of all parties and of all that was sent. -/
structure Contract.Holds (C : Contract ι σ μ) (w : World ι σ μ) : Prop where
  party : ∀ i, C.party w.medium i (w.party i)
  message : ∀ x ∈ w.medium, C.message w.medium x.1 x.2

/-- A step of a party keeps the contract. -/
def Keeps (N : Network ι σ ε μ) (C : Contract ι σ μ) : Prop :=
  ∀ J i s e, (∀ x ∈ J, C.message J x.1 x.2) → C.party J i s → N.enabled J i s e →
    let J' := J ++ (N.step i s e).2.map fun x => (i, x)
    C.party J' i (N.step i s e).1 ∧ ∀ x ∈ (N.step i s e).2, C.message J' i x

variable {N : Network ι σ ε μ} {C : Contract ι σ μ} {w : World ι σ μ} {i : ι} {e : ε}

theorem step_act (he : N.enabled w.medium i (w.party i) e) : N.system.step w (i, e) (N.act w i e) := ⟨he, rfl⟩

theorem reach_act (h : N.system.Reach w) (he : N.enabled w.medium i (w.party i) e) : N.system.Reach (N.act w i e) :=
  .step h trivial (step_act he)

theorem Keeps.act (h : N.Keeps C) (hw : C.Holds w) (he : N.enabled w.medium i (w.party i) e) :
    C.Holds (N.act w i e) := by
  obtain ⟨hparty, hout⟩ := h w.medium i (w.party i) e hw.message (hw.party i) he
  have hgrows : w.medium ⊆ (N.act w i e).medium := List.subset_append_left _ _
  refine ⟨fun j => ?_, fun x hx => ?_⟩
  · show C.party (N.act w i e).medium j (Function.update w.party i _ j)
    by_cases hj : j = i
    · subst hj
      rw [Function.update_self]
      exact hparty
    · rw [Function.update_of_ne hj]
      exact C.party_mono hgrows (hw.party j)
  · rcases List.mem_append.mp hx with hold | hnew
    · exact C.message_mono hgrows (hw.message x hold)
    · obtain ⟨y, hy, rfl⟩ := List.mem_map.mp hnew
      exact hout y hy

/-- **The rule.**  What holds of the parties at the start and is kept by each of
them, as long as the others keep it, holds in every run. -/
theorem guarantee (hinit : ∀ i s, N.init i s → C.party [] i s) (h : N.Keeps C) (hr : N.system.Reach w) : C.Holds w := by
  refine System.ReachVia.invariant ?_ ?_ hr
  · rintro w ⟨hw, hempty⟩
    refine ⟨fun i => hempty.symm ▸ hinit i _ (hw i), fun x hx => ?_⟩
    rw [hempty] at hx
    exact absurd hx List.not_mem_nil
  · rintro w ⟨i, e⟩ w' hw - ⟨he, rfl⟩
    exact h.act hw he

/-! ## One network inside another -/

/-- The parties of `N` do what those of `M` do, step by step or by steps that show
nothing: neither in `party`, what is seen of a state, nor on the medium. -/
structure Simulation {σ' ε' : Type} (N : Network ι σ ε μ) (M : Network ι σ' ε' μ) where
  party : σ → σ'
  label : σ → ε → Option ε'
  inv : List (ι × μ) → ι → σ → Prop
  inv_mono : ∀ {J J' i s}, J ⊆ J' → inv J i s → inv J' i s
  init : ∀ {i s}, N.init i s → M.init i (party s) ∧ inv [] i s
  keeps : ∀ {J i s e}, inv J i s → N.enabled J i s e → inv J i (N.step i s e).1
  shown : ∀ {J i s e e'}, inv J i s → N.enabled J i s e → label s e = some e' →
    M.enabled J i (party s) e' ∧ M.step i (party s) e' = (party (N.step i s e).1, (N.step i s e).2)
  hidden : ∀ {J i s e}, inv J i s → N.enabled J i s e → label s e = none →
    party (N.step i s e).1 = party s ∧ (N.step i s e).2 = []

variable {σ' ε' : Type} {M : Network ι σ' ε' μ}

/-- What is seen of the parties, and the medium. -/
def Simulation.world (S : Simulation N M) (w : World ι σ μ) : World ι σ' μ := ⟨fun i => S.party (w.party i), w.medium⟩

theorem Simulation.party_act (S : Simulation N M) : (S.world (N.act w i e)).party =
    Function.update (S.world w).party i (S.party (N.step i (w.party i) e).1) := by
  funext j
  show S.party (Function.update w.party i _ j) = _
  by_cases hj : j = i
  · subst hj
    rw [Function.update_self, Function.update_self]
  · rw [Function.update_of_ne hj, Function.update_of_ne hj]
    rfl

/-- **The second rule.**  A run of the one network, as far as it is seen, is one of the
other. -/
theorem Simulation.reach (S : Simulation N M) (h : N.system.Reach w) :
    M.system.Reach (S.world w) ∧ ∀ i, S.inv w.medium i (w.party i) := by
  induction h with
  | @init w hw =>
      obtain ⟨hparty, hempty⟩ := hw
      refine ⟨.init ⟨fun i => (S.init (hparty i)).1, hempty⟩, fun i => ?_⟩
      rw [hempty]
      exact (S.init (hparty i)).2
  | @step w _ x _ _ hs ih =>
      obtain ⟨i, e⟩ := x
      obtain ⟨he, rfl⟩ := hs
      obtain ⟨hreach, hinv⟩ := ih
      have hgrows : w.medium ⊆ (N.act w i e).medium := List.subset_append_left _ _
      refine ⟨?_, fun j => ?_⟩
      · cases hlabel : S.label (w.party i) e with
        | none =>
            obtain ⟨hsame, hsilent⟩ := S.hidden (hinv i) he hlabel
            have hworld : S.world (N.act w i e) = S.world w := by
              have hparty := S.party_act (w := w) (i := i) (e := e)
              rw [hsame] at hparty
              have hmedium : (N.act w i e).medium = w.medium := by
                show w.medium ++ _ = w.medium
                rw [hsilent]
                exact List.append_nil _
              show World.mk (S.world (N.act w i e)).party (N.act w i e).medium = World.mk (S.world w).party w.medium
              rw [hparty, hmedium]
              exact congrArg (World.mk · w.medium) (Function.update_eq_self i _)
            rw [hworld]
            exact hreach
        | some e' =>
            obtain ⟨hen, hshown⟩ := S.shown (hinv i) he hlabel
            have hstep : M.step i ((S.world w).party i) e' =
                (S.party (N.step i (w.party i) e).1, (N.step i (w.party i) e).2) := hshown
            have hworld : S.world (N.act w i e) = M.act (S.world w) i e' := by
              have hparty := S.party_act (w := w) (i := i) (e := e)
              show World.mk (S.world (N.act w i e)).party (w.medium ++ _) = World.mk (Function.update _ i
                (M.step i ((S.world w).party i) e').1) (w.medium ++ (M.step i ((S.world w).party i) e').2.map _)
              rw [hparty, hstep]
            rw [hworld]
            exact reach_act hreach hen
      · by_cases hj : j = i
        · subst hj
          have hkeeps := S.keeps (hinv j) he
          have hself : (N.act w j e).party j = (N.step j (w.party j) e).1 := Function.update_self ..
          rw [hself]
          exact S.inv_mono hgrows hkeeps
        · have hother : (N.act w i e).party j = w.party j := Function.update_of_ne hj ..
          rw [hother]
          exact S.inv_mono hgrows (hinv j)

end Network

end LiteBSD.Lib
