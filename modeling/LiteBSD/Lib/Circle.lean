/-
# `LiteBSD.Lib.Circle` — circular singly linked lists

A circle of nodes with one successor each is known by its last node, the one
that a new node is put behind.  Removing a node is storing into the one before
it, and there is no way to that one but around the circle: it is found by a
loop of the form

    do { ...; t = t->next; } while (t != start)

which has looked at every node exactly once when it is back at its start
(`Circle.doWhile`).  Which node is the last is a matter of where one begins
(`Circle.rotate`).
-/
import Mathlib.Data.List.Basic
import Mathlib.Data.List.Nodup
import Mathlib.Logic.Function.Iterate

namespace LiteBSD.Lib

/-- Following `next` from `a` meets the nodes of the list, and is then at `b`. -/
def Arc {α : Type} (next : α → α) : α → List α → α → Prop
  | a, [], b => a = b
  | a, x :: l, b => a = x ∧ Arc next (next x) l b

/-- The nodes `init`, then `tail`, and around again. -/
structure Circle {α : Type} (next : α → α) (tail : α) (init : List α) : Prop where
  arc : Arc next (next tail) init tail
  nodup : (init ++ [tail]).Nodup

/-- `do { body; t = t->next; } while (t != stop)`: the body may `break`. -/
def doWhile {α σ : Type} [DecidableEq α] (next : α → α) (stop : α) (body : σ → α → σ × Bool) : Nat → α → σ → Option σ
  | 0, _, _ => none
  | fuel + 1, t, s =>
      let (s, done) := body s t
      if done then some s
      else if next t = stop then some s
      else doWhile next stop body fuel (next t) s

/-- The same over a list. -/
def foldBreak {α σ : Type} (body : σ → α → σ × Bool) : List α → σ → σ
  | [], s => s
  | a :: l, s =>
      let (s, done) := body s a
      if done then s else foldBreak body l s

section Circles

variable {α σ : Type} {next next' : α → α} {a b c x tail : α} {l l' init : List α}

/-! ## Segments -/

theorem arc_append : Arc next a (l ++ l') c ↔ ∃ b, Arc next a l b ∧ Arc next b l' c := by
  induction l generalizing a with
  | nil => exact ⟨fun h => ⟨a, rfl, h⟩, fun ⟨b, hb, h⟩ => hb ▸ h⟩
  | cons x l ih =>
      constructor
      · rintro ⟨rfl, h⟩
        obtain ⟨b, hb, hc⟩ := ih.mp h
        exact ⟨b, ⟨rfl, hb⟩, hc⟩
      · rintro ⟨b, ⟨rfl, hb⟩, hc⟩
        exact ⟨rfl, ih.mpr ⟨b, hb, hc⟩⟩

/-- At `x`, the node behind the list. -/
theorem arc_cons_right : Arc next a (l ++ x :: l') c ↔ Arc next a l x ∧ Arc next (next x) l' c := by
  rw [arc_append]
  exact ⟨fun ⟨_, hl, rfl, h⟩ => ⟨hl, h⟩, fun ⟨hl, h⟩ => ⟨x, hl, rfl, h⟩⟩

/-- Stores elsewhere do not matter. -/
theorem Arc.congr (h : Arc next a l b) (hsame : ∀ y ∈ l, next' y = next y) : Arc next' a l b := by
  induction l generalizing a with
  | nil => exact h
  | cons y l ih =>
      obtain ⟨rfl, h⟩ := h
      refine ⟨rfl, ?_⟩
      rw [hsame a List.mem_cons_self]
      exact ih h fun z hz => hsame z (List.mem_cons_of_mem _ hz)

/-- The loop along a segment that does not come by its end before. -/
theorem Arc.doWhile [DecidableEq α] (h : Arc next a (x :: l) b) (hb : b ∉ l) (body : σ → α → σ × Bool) (s : σ)
    {fuel : Nat} (hfuel : l.length < fuel) :
    Lib.doWhile next b body fuel a s = some (foldBreak body (x :: l) s) := by
  induction fuel generalizing a x l s with
  | zero => exact absurd hfuel (Nat.not_lt_zero _)
  | succ fuel ih =>
      obtain ⟨rfl, h⟩ := h
      rw [Lib.doWhile, foldBreak]
      dsimp only
      split
      · rfl
      cases l with
      | nil =>
          have hend : next a = b := h
          rw [if_pos hend, foldBreak]
      | cons y l =>
          have hy : next a = y := h.1
          have hne : next a ≠ b := fun he => hb (by rw [← he, hy]; exact List.mem_cons_self)
          rw [if_neg hne]
          exact ih h (fun hmem => hb (List.mem_cons_of_mem _ hmem)) _ (Nat.lt_of_succ_lt_succ hfuel)

/-! ## What a loop computes -/

/-- A search. -/
theorem foldBreak_find (p : α → Bool) (l : List α) :
    foldBreak (fun found a => if p a then (some a, true) else (found, false)) l none = l.find? p := by
  induction l with
  | nil => rfl
  | cons a l ih =>
      rw [foldBreak]
      by_cases ha : p a = true
      · simp [ha]
      · simpa [ha] using ih

/-- A loop without a `break`. -/
theorem foldBreak_foldl (f : σ → α → σ) (l : List α) (s : σ) :
    foldBreak (fun s a => (f s a, false)) l s = l.foldl f s := by
  induction l generalizing s with
  | nil => rfl
  | cons a l ih => exact ih (f s a)

/-! ## Circles -/

theorem Circle.doWhile [DecidableEq α] (h : Circle next tail init) (body : σ → α → σ × Bool) (s : σ) {fuel : Nat}
    (hfuel : init.length < fuel) :
    Lib.doWhile next (next tail) body fuel (next tail) s = some (foldBreak body (init ++ [tail]) s) := by
  have hseg : Arc next (next tail) (init ++ [tail]) (next tail) := arc_cons_right.mpr ⟨h.arc, rfl⟩
  have hnodup := h.nodup
  cases init with
  | nil => exact hseg.doWhile List.not_mem_nil body s hfuel
  | cons y init =>
      have hy : next tail = y := h.arc.1
      rw [hy] at hseg ⊢
      have hlen : (init ++ [tail]).length < fuel := by
        rw [List.length_append]
        exact hfuel
      exact Arc.doWhile hseg (List.nodup_cons.mp hnodup).1 body s hlen

/-- The loop that begins at the last node. -/
theorem Circle.doWhile_tail [DecidableEq α] (h : Circle next tail init) (body : σ → α → σ × Bool) (s : σ) {fuel : Nat}
    (hfuel : init.length < fuel) :
    Lib.doWhile next tail body fuel tail s = some (foldBreak body (tail :: init) s) := by
  have hseg : Arc next tail (tail :: init) tail := ⟨rfl, h.arc⟩
  have htail : tail ∉ init := fun hmem => List.disjoint_of_nodup_append h.nodup hmem (List.mem_singleton_self _)
  exact hseg.doWhile htail body s hfuel

/-- Step by step from the first node to the last one. -/
theorem Arc.iterate (h : Arc next a l b) :
    (List.range l.length).map (fun i => next^[i] a) = l ∧ next^[l.length] a = b := by
  induction l generalizing a with
  | nil => exact ⟨rfl, h⟩
  | cons x l ih =>
      obtain ⟨rfl, h⟩ := h
      obtain ⟨hmap, hlast⟩ := ih h
      refine ⟨?_, hlast⟩
      rw [List.length_cons, List.range_succ_eq_map, List.map_cons, List.map_map]
      exact congrArg (List.cons a) hmap

/-- Following `next` from the last node meets every node once and is back. -/
theorem Circle.iterate (h : Circle next tail init) :
    (List.range (init ++ [tail]).length).map (fun i => next^[i + 1] tail) = init ++ [tail] ∧
      next^[(init ++ [tail]).length] tail = tail := by
  have hround : Arc next (next tail) (init ++ [tail]) (next tail) := arc_cons_right.mpr ⟨h.arc, rfl⟩
  refine ⟨hround.iterate.1, ?_⟩
  rw [List.length_append]
  exact h.arc.iterate.2

/-- The node behind the last one is the first. -/
theorem Circle.head (h : Circle next tail init) : ∃ rest, init ++ [tail] = next tail :: rest := by
  cases init with
  | nil => exact ⟨[], congrArg (fun x => [x]) (h.arc : next tail = tail).symm⟩
  | cons y init => exact ⟨init ++ [tail], congrArg (· :: (init ++ [tail])) h.arc.1.symm⟩

/-- Any node can be taken for the last one. -/
theorem Circle.rotate (h : Circle next tail (l ++ x :: l')) : Circle next x (l' ++ tail :: l) := by
  obtain ⟨hl, hl'⟩ := arc_cons_right.mp h.arc
  refine ⟨arc_cons_right.mpr ⟨hl', hl⟩, ?_⟩
  have hbefore : l ++ x :: l' ++ [tail] = (l ++ [x]) ++ (l' ++ [tail]) := by simp
  have hafter : l' ++ tail :: l ++ [x] = (l' ++ [tail]) ++ (l ++ [x]) := by simp
  rw [hafter, List.perm_append_comm.nodup_iff, ← hbefore]
  exact h.nodup

/-- A node by itself. -/
theorem Circle.single [DecidableEq α] (next : α → α) (x : α) : Circle (Function.update next x x) x [] :=
  ⟨Function.update_self .., List.nodup_singleton x⟩

/-- A new node behind the last one. -/
theorem Circle.insert [DecidableEq α] (h : Circle next tail init) (hx : x ∉ init ++ [tail]) :
    Circle (Function.update (Function.update next x (next tail)) tail x) x (init ++ [tail]) := by
  have htail : tail ≠ x := fun he => hx (he ▸ List.mem_append_right _ (List.mem_singleton_self _))
  have hinit : tail ∉ init := fun hmem => List.disjoint_of_nodup_append h.nodup hmem (List.mem_singleton_self _)
  have hfirst : Function.update (Function.update next x (next tail)) tail x x = next tail := by
    rw [Function.update_of_ne htail.symm, Function.update_self]
  refine ⟨?_, ?_⟩
  · rw [hfirst]
    refine arc_cons_right.mpr ⟨h.arc.congr fun y hy => ?_, Function.update_self ..⟩
    have hyx : y ≠ x := fun he => hx (he ▸ List.mem_append_left _ hy)
    have hyt : y ≠ tail := fun he => hinit (he ▸ hy)
    rw [Function.update_of_ne hyt, Function.update_of_ne hyx]
  · exact List.nodup_append.mpr ⟨h.nodup, List.nodup_singleton x, fun y hy z hz he => hx (by
      rw [← List.mem_singleton.mp hz, ← he]; exact hy)⟩

/-- The last node goes: the one before it is the last then. -/
theorem Circle.dropTail [DecidableEq α] (h : Circle next tail (l ++ [x])) :
    Circle (Function.update next x (next tail)) x l := by
  have hnodup := (List.nodup_append.mp h.nodup).1
  have hx : x ∉ l := fun hmem => List.disjoint_of_nodup_append hnodup hmem (List.mem_singleton_self _)
  refine ⟨?_, hnodup⟩
  rw [Function.update_self]
  refine (arc_cons_right.mp h.arc).1.congr fun y hy => ?_
  have hyx : y ≠ x := fun he => hx (he ▸ hy)
  exact Function.update_of_ne hyx _ _

/-- Another node goes: the one before it is not the last. -/
theorem Circle.dropInner [DecidableEq α] (h : Circle next tail (l ++ x :: b :: l')) :
    Circle (Function.update next x (next b)) tail (l ++ x :: l') := by
  have hrotated : Circle next b (l' ++ tail :: l ++ [x]) := by
    have := @Circle.rotate α next b tail (l ++ [x]) l' (by simpa using h)
    simpa using this
  exact (hrotated.dropTail).rotate

/-- And where it is the last. -/
theorem Circle.dropHead [DecidableEq α] (h : Circle next tail (b :: l)) :
    Circle (Function.update next tail (next b)) tail l := by
  have hrotated : Circle next b (l ++ [tail]) := @Circle.rotate α next b tail [] l h
  exact hrotated.dropTail

/-- Looking for the node before `x`, from the last one on. -/
theorem Arc.find_before [DecidableEq α] (h : Arc next (next a) l x) (hx : x ∉ l) (l' : List α) :
    (a :: l ++ l').find? (fun p => next p = x) = some ((a :: l).getLast (List.cons_ne_nil a l)) := by
  induction l generalizing a with
  | nil =>
      have hnext : next a = x := h
      simp [hnext]
  | cons y l ih =>
      obtain ⟨hy, h⟩ := h
      have hne : next a ≠ x := fun he => hx (by rw [← he, hy]; exact List.mem_cons_self)
      rw [List.cons_append, List.find?_cons_of_neg (by simpa using hne), List.getLast_cons (List.cons_ne_nil y l)]
      exact ih h fun hmem => hx (List.mem_cons_of_mem y hmem)

/-- A node that is not on the circle has none before it. -/
theorem Arc.find_none [DecidableEq α] (h : Arc next (next a) l b) (hx : x ∉ l) (hb : b ≠ x) :
    (a :: l).find? (fun p => next p = x) = none := by
  induction l generalizing a with
  | nil =>
      have hnext : next a = b := h
      simp [hnext, hb]
  | cons y l ih =>
      obtain ⟨hy, h⟩ := h
      have hne : next a ≠ x := fun he => hx (by rw [← he, hy]; exact List.mem_cons_self)
      rw [List.find?_cons_of_neg (by simpa using hne)]
      exact ih h fun hmem => hx (List.mem_cons_of_mem y hmem)

/-- A node that comes right behind itself is by itself. -/
theorem Circle.eq_nil (h : Circle next tail init) (hnext : next tail = tail) : init = [] := by
  cases init with
  | nil => rfl
  | cons y init =>
      have hy : next tail = y := h.arc.1
      have hmem : tail ∈ y :: init := by
        rw [← hy, hnext]
        exact List.mem_cons_self
      exact absurd (List.mem_singleton_self _) (List.disjoint_of_nodup_append h.nodup hmem)

/-- The node before `x` is found, and with a store into it `x` is gone. -/
theorem Circle.remove [DecidableEq α] (h : Circle next tail init) (hx : x ∈ init ++ [tail]) (hinit : init ≠ []) :
    ∃ prev rest, (tail :: init).find? (fun p => next p = x) = some prev ∧
      Circle (Function.update next prev (next x)) (if tail = x then prev else tail) rest ∧
      (init ++ [tail]).erase x = rest ++ [if tail = x then prev else tail] := by
  have hdisj := List.disjoint_of_nodup_append h.nodup
  rcases List.mem_append.mp hx with hfront | htail
  · -- a node in front of the last one
    obtain ⟨l, l', rfl, hfirst⟩ := List.eq_append_cons_of_mem hfront
    have hne : tail ≠ x := fun he => hdisj hfront (he ▸ List.mem_singleton_self _)
    have herase : (l ++ x :: l' ++ [tail]).erase x = l ++ l' ++ [tail] := by
      rw [List.append_assoc, List.erase_append_right _ hfirst, List.cons_append, List.erase_cons_head,
        List.append_assoc]
    have hfound := (arc_cons_right.mp h.arc).1.find_before hfirst (x :: l')
    refine ⟨_, l ++ l', hfound, ?_, by rw [herase, if_neg hne]⟩
    rw [if_neg hne]
    rcases List.eq_nil_or_concat l with rfl | ⟨l, p, rfl⟩
    · exact h.dropHead
    · rw [List.concat_eq_append] at h ⊢
      rw [List.getLast_cons (by simp), List.getLast_append_singleton, List.append_assoc]
      exact Circle.dropInner (by simpa using h)
  · -- the last one
    obtain rfl := List.mem_singleton.mp htail
    have hfirst : x ∉ init := fun hmem => hdisj hmem htail
    have hfound := h.arc.find_before hfirst []
    rw [List.append_nil] at hfound
    have herase : (init ++ [x]).erase x = init := by
      rw [List.erase_append_right _ hfirst, List.erase_cons_head, List.append_nil]
    rcases List.eq_nil_or_concat init with rfl | ⟨l, p, rfl⟩
    · exact absurd rfl hinit
    · rw [List.concat_eq_append] at h hfound herase ⊢
      rw [List.getLast_cons (by simp), List.getLast_append_singleton] at hfound
      refine ⟨p, l, hfound, ?_, by rw [herase, if_pos rfl]⟩
      rw [if_pos rfl]
      exact h.dropTail

end Circles

end LiteBSD.Lib
