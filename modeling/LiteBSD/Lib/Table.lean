/-
# `LiteBSD.Lib.Table` — rows with keys as a map

A table has rows, each with a value and, if it is listed, a key.  When no two
rows have one key (`KeysApart`) it presents a map from keys to values
(`Tabulates`), and what is done to a row is seen in the map: a new row
(`Tabulates.add`), a row that is taken out (`Tabulates.remove`), a value that is
exchanged (`Tabulates.store`), and keys that are exchanged for others
(`Tabulates.rekey`), where the map is CARRIED along (`Carried`).

Maps that are carried along a function and back are as they were
(`Carried.back`).
-/
import Mathlib.Logic.Function.Basic

namespace LiteBSD.Lib

variable {ι κ β : Type}

/-! ## Maps that are carried along -/

/-- What is under a key goes to the image of the key, and nothing else is there. -/
structure Carried (f : κ → κ) (m m' : κ → Option β) : Prop where
  goes : ∀ {k b}, m k = some b → m' (f k) = some b
  comes : ∀ {k b}, m' k = some b → ∃ j, m j = some b ∧ f j = k

section Carried

variable {f g : κ → κ} {m m' m'' : κ → Option β}

theorem Carried.trans (h : Carried f m m') (h' : Carried g m' m'') : Carried (g ∘ f) m m'' where
  goes hk := h'.goes (h.goes hk)
  comes hk := by
    obtain ⟨j, hj, rfl⟩ := h'.comes hk
    obtain ⟨i, hi, rfl⟩ := h.comes hj
    exact ⟨i, hi, rfl⟩

/-- A function that leaves the keys alone. -/
theorem Carried.eq (h : Carried f m m') (hf : ∀ k b, m k = some b → f k = k) : m' = m := by
  funext k
  cases hk : m' k with
  | some b =>
      obtain ⟨j, hj, rfl⟩ := h.comes hk
      rw [hf j b hj, hj]
  | none =>
      cases hb : m k with
      | none => rfl
      | some b =>
          have hgoes := h.goes hb
          rw [hf k b hb, hk] at hgoes
          cases hgoes

theorem Carried.back (h : Carried f m m') (h' : Carried g m' m'') (hf : ∀ k b, m k = some b → g (f k) = k) : m'' = m :=
  (h.trans h').eq hf

end Carried

/-! ## Tables -/

/-- No two rows have one key. -/
def KeysApart (key : ι → Option κ) : Prop :=
  ∀ x y k, key x = some k → key y = some k → x = y

/-- The map has under each key the value of the row with the key. -/
def Tabulates (key : ι → Option κ) (val : ι → Option β) (m : κ → Option β) : Prop :=
  ∀ k b, m k = some b ↔ ∃ x, key x = some k ∧ val x = some b

section Tables

variable {key : ι → Option κ} {val val' : ι → Option β} {m m' : κ → Option β} {x : ι} {k : κ} {b : β}

theorem Tabulates.unique (h : Tabulates key val m) (h' : Tabulates key val m') : m' = m := by
  funext k
  refine Option.ext fun b => ?_
  exact (h' k b).trans (h k b).symm

/-- The values of the rows that are not listed do not count. -/
theorem Tabulates.congr (h : Tabulates key val m) (hval : ∀ x k, key x = some k → val' x = val x) :
    Tabulates key val' m := by
  intro k b
  rw [h k b]
  constructor
  · rintro ⟨x, hx, hb⟩
    exact ⟨x, hx, (hval x k hx).trans hb⟩
  · rintro ⟨x, hx, hb⟩
    exact ⟨x, hx, (hval x k hx).symm.trans hb⟩

variable [DecidableEq ι] [DecidableEq κ]

theorem Tabulates.add (h : Tabulates key val m) (hx : key x = none) (hk : m k = none)
    (hval : ∀ y, key y ≠ none → val y ≠ none) :
    Tabulates (Function.update key x (some k)) (Function.update val x (some b)) (Function.update m k (some b)) := by
  intro j c
  by_cases hj : j = k
  · subst hj
    rw [Function.update_self]
    constructor
    · intro hc
      exact ⟨x, Function.update_self _ _ _, by rw [Function.update_self]; exact hc⟩
    · rintro ⟨y, hy, hc⟩
      by_cases hyx : y = x
      · subst hyx
        rwa [Function.update_self] at hc
      · -- no other row has the key
        rw [Function.update_of_ne hyx] at hy
        obtain ⟨d, hd⟩ := Option.ne_none_iff_exists'.mp (hval y (by rw [hy]; exact Option.some_ne_none _))
        rw [(h j d).mpr ⟨y, hy, hd⟩] at hk
        cases hk
  · rw [Function.update_of_ne hj, h j c]
    constructor
    · rintro ⟨y, hy, hc⟩
      have hyx : y ≠ x := by
        rintro rfl
        rw [hx] at hy
        cases hy
      exact ⟨y, by rw [Function.update_of_ne hyx]; exact hy, by rw [Function.update_of_ne hyx]; exact hc⟩
    · rintro ⟨y, hy, hc⟩
      have hyx : y ≠ x := by
        rintro rfl
        rw [Function.update_self] at hy
        exact hj (Option.some.inj hy).symm
      rw [Function.update_of_ne hyx] at hy hc
      exact ⟨y, hy, hc⟩

theorem Tabulates.remove (h : Tabulates key val m) (hapart : KeysApart key) (hx : key x = some k) :
    Tabulates (Function.update key x none) val (Function.update m k none) := by
  intro j c
  by_cases hj : j = k
  · subst hj
    rw [Function.update_self]
    constructor
    · intro hc
      cases hc
    · rintro ⟨y, hy, -⟩
      by_cases hyx : y = x
      · subst hyx
        rw [Function.update_self] at hy
        cases hy
      · rw [Function.update_of_ne hyx] at hy
        exact absurd (hapart y x j hy hx) hyx
  · rw [Function.update_of_ne hj, h j c]
    constructor
    · rintro ⟨y, hy, hc⟩
      have hyx : y ≠ x := by
        rintro rfl
        exact hj (Option.some.inj (hy.symm.trans hx))
      exact ⟨y, by rw [Function.update_of_ne hyx]; exact hy, hc⟩
    · rintro ⟨y, hy, hc⟩
      have hyx : y ≠ x := by
        rintro rfl
        rw [Function.update_self] at hy
        cases hy
      rw [Function.update_of_ne hyx] at hy
      exact ⟨y, hy, hc⟩

theorem Tabulates.store (h : Tabulates key val m) (hapart : KeysApart key) (hx : key x = some k) :
    Tabulates key (Function.update val x (some b)) (Function.update m k (some b)) := by
  intro j c
  by_cases hj : j = k
  · subst hj
    rw [Function.update_self]
    constructor
    · intro hc
      exact ⟨x, hx, by rw [Function.update_self]; exact hc⟩
    · rintro ⟨y, hy, hc⟩
      rw [hapart y x j hy hx, Function.update_self] at hc
      exact hc
  · have hother : ∀ {y}, key y = some j → y ≠ x := by
      rintro y hy rfl
      exact hj (Option.some.inj (hy.symm.trans hx))
    rw [Function.update_of_ne hj, h j c]
    constructor
    · rintro ⟨y, hy, hc⟩
      exact ⟨y, hy, by rw [Function.update_of_ne (hother hy)]; exact hc⟩
    · rintro ⟨y, hy, hc⟩
      rw [Function.update_of_ne (hother hy)] at hc
      exact ⟨y, hy, hc⟩

omit [DecidableEq ι] [DecidableEq κ] in
theorem Tabulates.rekey (h : Tabulates key val m) {f : κ → κ} (h' : Tabulates (fun x => (key x).map f) val m') :
    Carried f m m' where
  goes {k b} hk := by
    obtain ⟨x, hx, hb⟩ := (h k b).mp hk
    exact (h' (f k) b).mpr ⟨x, congrArg (Option.map f) hx, hb⟩
  comes {k b} hk := by
    obtain ⟨x, hx, hb⟩ := (h' k b).mp hk
    obtain ⟨j, hj, rfl⟩ := Option.map_eq_some_iff.mp hx
    exact ⟨j, (h j b).mpr ⟨x, hj, hb⟩, rfl⟩

end Tables

end LiteBSD.Lib
