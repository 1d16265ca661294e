/-
# `LiteBSD.Tasks.Slots` — the loops over the descriptors of a task

`fork_task` counts every open file once more for each slot of the child, and
`task_exit` takes these counts away again.  What was counted before stays
counted, so a child that has opened nothing frees no file
(`releaseAll_shared`).
-/
import LiteBSD.Tasks.Blocks

namespace LiteBSD.Tasks

open Lib Files

/-- How many of the slots `l` of the task `t` point at the file `f`. -/
def slotCount (k : Kernel) (t : Nat) (l : List (Fin maxFds)) (f : Nat) : Nat := l.countP fun i => k.fd (t, i) = some f

/-- Each file that the slots `l` of the task `c` point at is there, and is
counted once at least for somebody else. -/
structure CountedBesides (k : Kernel) (c : Nat) (l : List (Fin maxFds)) : Prop where
  live : ∀ i ∈ l, ∀ f, k.fd (c, i) = some f → (k.file f).isSome
  counts : ∀ f x, k.file f = some x → (slotCount k c l f : Int) < x.refCount

/-- The slots `done` of `t` have been copied to `c`. -/
structure Copied (k k' : Kernel) (t c : Nat) (done : List (Fin maxFds)) : Prop where
  rest : k' = { k with fd := k'.fd, file := k'.file }
  others : ∀ s : Nat × Fin maxFds, s.1 ≠ c → k'.fd s = k.fd s
  slots : ∀ i ∈ done, k'.fd (c, i) = k.fd (t, i)
  live : ∀ i ∈ done, ∀ f, k.fd (t, i) = some f → (k.file f).isSome
  file : ∀ f, (k'.file f).isSome = (k.file f).isSome
  counts : ∀ f x, k'.file f = some x → ∃ y, k.file f = some y ∧ x.refCount = y.refCount + slotCount k t done f

section Slots

variable {k k' : Kernel} {t c : Nat}

theorem slotCount_cons (i : Fin maxFds) (l : List (Fin maxFds)) (f : Nat) :
    slotCount k t (i :: l) f = slotCount k t l f + if k.fd (t, i) = some f then 1 else 0 := by
  unfold slotCount
  rw [List.countP_cons]
  simp only [decide_eq_true_eq]

theorem slotCount_snoc (l : List (Fin maxFds)) (i : Fin maxFds) (f : Nat) :
    slotCount k t (l ++ [i]) f = slotCount k t l f + if k.fd (t, i) = some f then 1 else 0 := by
  rw [← slotCount_cons]
  exact (List.perm_append_singleton i l).countP_eq _

theorem slotCount_congr {l : List (Fin maxFds)} (h : ∀ i ∈ l, k'.fd (c, i) = k.fd (t, i)) (f : Nat) :
    slotCount k' c l f = slotCount k t l f := by
  refine List.countP_congr fun i hi => ?_
  rw [h i hi]

/-- One round of the loop of `fork_task`. -/
theorem Copied.copyFd {done : List (Fin maxFds)} (h : Copied k k' t c done) (hne : t ≠ c) (i : Fin maxFds) :
    (copyFd t c k' i).Ensures fun k'' => Copied k k'' t c (done ++ [i]) := by
  have hsame : k'.fd (t, i) = k.fd (t, i) := h.others (t, i) hne
  have hfd : ∀ p, ∀ s : Nat × Fin maxFds, s.1 ≠ c → (k'.setFd c i p).fd s = k.fd s := by
    intro p s hs
    have hsc : s ≠ (c, i) := fun he => hs (congrArg Prod.fst he)
    exact (Function.update_of_ne hsc _ _).trans (h.others s hs)
  have hslots : ∀ p, p = k.fd (t, i) → ∀ j ∈ done ++ [i], (k'.setFd c i p).fd (c, j) = k.fd (t, j) := by
    intro p hp j hj
    show Function.update k'.fd (c, i) p (c, j) = _
    by_cases hji : j = i
    · rw [hji, Function.update_self, hp]
    · have hj := (List.mem_append.mp hj).resolve_right fun hj => hji (List.mem_singleton.mp hj)
      rw [Function.update_of_ne fun he => hji (congrArg Prod.snd he), h.slots j hj]
  unfold Files.copyFd
  dsimp only
  split
  · rename_i hnone
    rw [hsame] at hnone
    refine .ret ⟨?_, hfd _, hslots _ hsame, fun j hj f hf => ?_, h.file, fun f x hx => ?_⟩
    · rw [h.rest]
      rfl
    · rcases List.mem_append.mp hj with hj | hj
      · exact h.live j hj f hf
      · rw [List.mem_singleton.mp hj, hnone] at hf
        cases hf
    · obtain ⟨y, hy, hcount⟩ := h.counts f x hx
      refine ⟨y, hy, ?_⟩
      rw [slotCount_snoc, hnone, if_neg (Option.some_ne_none f).symm]
      exact hcount
  · rename_i g hg
    refine .bind (fun _ hx => load_eq_ret.mp hx) fun x hx => .ret ?_
    have hx : k'.file g = some x := hx
    rw [hsame] at hg
    have hsome : (k.file g).isSome := by
      rw [← h.file g, hx]
      rfl
    refine ⟨?_, hfd _, hslots _ hsame, fun j hj f hf => ?_, fun f => ?_, fun f y hy => ?_⟩
    · rw [h.rest]
      rfl
    · rcases List.mem_append.mp hj with hj | hj
      · exact h.live j hj f hf
      · rw [List.mem_singleton.mp hj, hg, Option.some.injEq] at hf
        exact hf ▸ hsome
    · show (Function.update k'.file g _ f).isSome = _
      by_cases hf : f = g
      · rw [hf, Function.update_self, hsome]
        rfl
      · rw [Function.update_of_ne hf, h.file f]
    · have hy : Function.update k'.file g (some { x with refCount := x.refCount + 1 }) f = some y := hy
      rw [slotCount_snoc, hg]
      by_cases hf : f = g
      · subst hf
        rw [Function.update_self, Option.some.injEq] at hy
        obtain ⟨z, hz, hcount⟩ := h.counts f x hx
        refine ⟨z, hz, ?_⟩
        rw [if_pos rfl, ← hy, hcount, Nat.cast_add, Int.add_assoc]
        rfl
      · rw [Function.update_of_ne hf] at hy
        obtain ⟨z, hz, hcount⟩ := h.counts f y hy
        refine ⟨z, hz, ?_⟩
        rw [if_neg fun he => hf (Option.some.inj he).symm]
        exact hcount

/-- The whole loop of `fork_task`. -/
theorem copyFds (hne : t ≠ c) :
    ((List.finRange maxFds).foldlM (copyFd t c) k).Ensures fun k' => Copied k k' t c (List.finRange maxFds) := by
  have hstart : Copied k k t c [] :=
    ⟨rfl, fun _ _ => rfl, fun _ hi => absurd hi List.not_mem_nil, fun _ hi => absurd hi List.not_mem_nil, fun _ => rfl,
      fun f x hx => ⟨x, hx, (Int.add_zero _).symm⟩⟩
  refine (Exec.Ensures.foldlM (fun rest k' => ∃ done, done ++ rest = List.finRange maxFds ∧ Copied k k' t c done)
    (fun i rest k' ⟨done, hall, hk'⟩ => (hk'.copyFd hne i).mono fun k'' hk'' => ⟨done ++ [i], ?_, hk''⟩)
    ⟨[], rfl, hstart⟩).mono fun k' ⟨done, hall, hk'⟩ => ?_
  · rw [← hall, List.append_assoc]
    rfl
  · rw [List.append_nil] at hall
    exact hall ▸ hk'

/-- What the child holds is counted for the parent besides. -/
theorem Copied.countedBesides (h : Copied k k' t c (List.finRange maxFds))
    (hpos : ∀ f x, k.file f = some x → 0 < x.refCount) : CountedBesides k' c (List.finRange maxFds) := by
  refine ⟨fun i hi f hf => ?_, fun f x hx => ?_⟩
  · rw [h.slots i hi] at hf
    rw [h.file f]
    exact h.live i hi f hf
  · obtain ⟨y, hy, hcount⟩ := h.counts f x hx
    rw [slotCount_congr h.slots, hcount]
    exact Int.lt_add_of_pos_left _ (hpos f y hy)

/-- `release_fd` where the file stays. -/
theorem CountedBesides.releaseFd {i : Fin maxFds} {l : List (Fin maxFds)} (h : CountedBesides k c (i :: l))
    (hi : i ∉ l) :
    ∃ k', releaseFd k c i = .ret k' ∧ CountedBesides k' c l ∧ k' = { k with fd := k'.fd, file := k'.file } ∧
      (∀ s : Nat × Fin maxFds, s.1 ≠ c → k'.fd s = k.fd s) ∧ ∀ f, (k'.file f).isSome = (k.file f).isSome := by
  unfold Files.releaseFd
  cases hfd : k.fd (c, i) with
  | none =>
      refine ⟨k, rfl, ⟨fun j hj => h.live j (List.mem_cons_of_mem i hj), fun f x hx => ?_⟩, rfl, fun _ _ => rfl,
        fun _ => rfl⟩
      have hcount := h.counts f x hx
      rw [slotCount_cons, hfd, if_neg (Option.some_ne_none f).symm] at hcount
      exact hcount
  | some g =>
      obtain ⟨x, hx⟩ := Option.isSome_iff_exists.mp (h.live i List.mem_cons_self g hfd)
      have hcount := h.counts g x hx
      rw [slotCount_cons, hfd, if_pos rfl] at hcount
      have hmore : ¬x.refCount - 1 ≤ 0 := by omega
      have hload : k.load g = .ret x := load_eq_ret.mpr hx
      have hslots : ∀ j ∈ l, Function.update k.fd (c, i) none (c, j) = k.fd (c, j) := by
        intro j hj
        refine Function.update_of_ne (fun he => hi ?_) _ _
        have hji : j = i := congrArg Prod.snd he
        exact hji ▸ hj
      have hfile : ∀ f, (Function.update k.file g (some { x with refCount := x.refCount - 1 }) f).isSome =
          (k.file f).isSome := by
        intro f
        by_cases hf : f = g
        · rw [hf, Function.update_self, hx]
          rfl
        · rw [Function.update_of_ne hf]
      refine ⟨(k.setFile g { x with refCount := x.refCount - 1 }).setFd c i none, ?_, ⟨fun j hj f hf => ?_,
        fun f y hy => ?_⟩, rfl, fun s hs => Function.update_of_ne (fun he => hs (congrArg Prod.fst he)) _ _, hfile⟩
      · simp only [hload, Exec.ret_bind, dropFile, if_neg hmore]
      · have hf : Function.update k.fd (c, i) none (c, j) = some f := hf
        rw [hslots j hj] at hf
        exact (hfile f).trans (h.live j (List.mem_cons_of_mem i hj) f hf)
      · rw [slotCount_congr hslots]
        have hy : Function.update k.file g (some { x with refCount := x.refCount - 1 }) f = some y := hy
        by_cases hf : f = g
        · subst hf
          rw [Function.update_self, Option.some.injEq] at hy
          rw [← hy]
          exact Int.lt_sub_right_of_add_lt hcount
        · rw [Function.update_of_ne hf] at hy
          have hcount := h.counts f y hy
          rw [slotCount_cons, hfd, if_neg fun he => hf (Option.some.inj he).symm] at hcount
          exact hcount

/-- The whole loop of `task_exit`: no file is freed. -/
theorem releaseAll_shared {l : List (Fin maxFds)} (hl : l.Nodup) (h : CountedBesides k c l) :
    ∃ k', l.foldlM (fun k i => releaseFd k c i) k = .ret k' ∧ k' = { k with fd := k'.fd, file := k'.file } ∧
      (∀ s : Nat × Fin maxFds, s.1 ≠ c → k'.fd s = k.fd s) ∧ (∀ f, (k'.file f).isSome = (k.file f).isSome) ∧
      ∀ f x, k'.file f = some x → 0 < x.refCount := by
  induction l generalizing k with
  | nil => exact ⟨k, rfl, rfl, fun _ _ => rfl, fun _ => rfl, h.counts⟩
  | cons i l ih =>
      obtain ⟨hi, hl⟩ := List.nodup_cons.mp hl
      obtain ⟨k₁, hk₁, hcounted, hrest, hothers, hfile⟩ := h.releaseFd hi
      obtain ⟨k₂, hk₂, hrest₂, hothers₂, hfile₂, hpos⟩ := ih hl hcounted
      refine ⟨k₂, ?_, ?_, fun s hs => (hothers₂ s hs).trans (hothers s hs), fun f => (hfile₂ f).trans (hfile f), hpos⟩
      · rw [List.foldlM_cons, hk₁]
        exact hk₂
      · rw [hrest₂, hrest]

end Slots

end LiteBSD.Tasks
