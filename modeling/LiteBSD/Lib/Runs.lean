/-
# `LiteBSD.Lib.Runs` — transition systems, their runs, and what holds along them

A system is a predicate for the states it starts in and a labelled step
relation.  Two notions are used throughout:

  * `ReachVia S G s` — some run reaches `s` and EVERY step of it meets the
    guard `G`, a condition on the state before the step and on its label.
    `Reach` is the case of no guard;
  * `Trace S tr s` — the run itself, with the list of the steps taken, so
    that a property of the steps of one run can be stated.

The rules are the two that every later invariant is proved with: an
invariant is checked initially and at one step (`ReachVia.invariant`), and
when, under the invariant, a step is good exactly if it meets the guard,
then a run is good throughout exactly if it meets the guard throughout
(`Trace.good_iff_guarded`).
-/
import Mathlib.Data.List.Basic

namespace LiteBSD.Lib

/-- A transition system over states `σ` with labels `ε`. -/
structure System (σ ε : Type) where
  init : σ → Prop
  step : σ → ε → σ → Prop

namespace System

variable {σ ε : Type} {S : System σ ε}

/-- The states reached by runs all of whose steps meet the guard. -/
inductive ReachVia (S : System σ ε) (G : σ → ε → Prop) : σ → Prop
  | init {s : σ} : S.init s → ReachVia S G s
  | step {s s' : σ} {e : ε} :
      ReachVia S G s → G s e → S.step s e s' → ReachVia S G s'

/-- The states reached by any run. -/
def Reach (S : System σ ε) : σ → Prop :=
  S.ReachVia fun _ _ => True

/-- The invariant rule: what holds initially and is kept by every guarded
step holds in every state a guarded run reaches. -/
theorem ReachVia.invariant {G : σ → ε → Prop} {I : σ → Prop}
    (hinit : ∀ s, S.init s → I s)
    (hstep : ∀ s e s', I s → G s e → S.step s e s' → I s')
    {s : σ} (h : S.ReachVia G s) : I s := by
  induction h with
  | init h => exact hinit _ h
  | step _ hg hs ih => exact hstep _ _ _ ih hg hs

/-- A stronger guard reaches fewer states. -/
theorem ReachVia.mono {G G' : σ → ε → Prop} (hG : ∀ s e, G s e → G' s e)
    {s : σ} (h : S.ReachVia G s) : S.ReachVia G' s := by
  induction h with
  | init h => exact .init h
  | step _ hg hs ih => exact .step ih (hG _ _ hg) hs

/-- The same steps, from this state on. -/
def after (S : System σ ε) (s : σ) : System σ ε where
  init := fun s' => s' = s
  step := S.step

/-- A run, with the steps it took: source, label and target, the latest
step first. -/
inductive Trace (S : System σ ε) : List (σ × ε × σ) → σ → Prop
  | nil {s : σ} : S.init s → Trace S [] s
  | snoc {tr : List (σ × ε × σ)} {s s' : σ} {e : ε} :
      Trace S tr s → S.step s e s' → Trace S ((s, e, s') :: tr) s'

/-- A run up to one of its steps. -/
theorem Trace.upTo {late early : List (σ × ε × σ)} {x : σ × ε × σ} {s : σ}
    (h : S.Trace (late ++ x :: early) s) : S.Trace (x :: early) x.2.2 := by
  induction late generalizing s with
  | nil =>
      cases h with
      | snoc h hs => exact .snoc h hs
  | cons y late ih =>
      cases h with
      | snoc h _ => exact ih h

/-- When a guarded step keeps `I` and, under `I`, a step is good exactly
if it meets the guard, a run is good at every step exactly if it meets the
guard at every step. -/
theorem Trace.good_iff_guarded {G : σ → ε → Prop} {I : σ → Prop}
    {P : σ → ε → σ → Prop}
    (hinit : ∀ s, S.init s → I s)
    (hstep : ∀ s e s', I s → G s e → S.step s e s' → I s')
    (hgood : ∀ s e s', I s → S.step s e s' → (P s e s' ↔ G s e))
    {tr : List (σ × ε × σ)} {s : σ} (h : S.Trace tr s) :
    (∀ x ∈ tr, P x.1 x.2.1 x.2.2) ↔ ∀ x ∈ tr, G x.1 x.2.1 := by
  -- the invariant is available only along guarded prefixes, so it is
  -- carried through the induction under that premise
  suffices H : ((∀ x ∈ tr, P x.1 x.2.1 x.2.2) ↔ ∀ x ∈ tr, G x.1 x.2.1) ∧
      ((∀ x ∈ tr, G x.1 x.2.1) → I s) from H.1
  induction h with
  | nil h => exact ⟨by simp, fun _ => hinit _ h⟩
  | @snoc tr s s' e _ hs ih =>
      obtain ⟨hiff, hI⟩ := ih
      simp only [List.forall_mem_cons]
      refine ⟨?_, fun hg => hstep _ _ _ (hI hg.2) hg.1 hs⟩
      constructor
      · rintro ⟨hp, hps⟩
        have hgs := hiff.mp hps
        exact ⟨(hgood _ _ _ (hI hgs) hs).mp hp, hgs⟩
      · rintro ⟨hg, hgs⟩
        exact ⟨(hgood _ _ _ (hI hgs) hs).mpr hg, hiff.mpr hgs⟩

end System

end LiteBSD.Lib
