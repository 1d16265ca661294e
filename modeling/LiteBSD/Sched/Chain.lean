/-
# `LiteBSD.Sched.Chain` — the processes alive form one line

A fork blocks the parent until the child is dead, so the processes that are
not zombies form a line from the root to the runner: each is the parent of
the next, all but the last are BLOCKED.  In ring order they even stand in
this order, with rising pids, because new tasks join the ring at its end.

A line of kin is a list of pairs (pid, ppid).  Fork puts a child at its end,
death takes the end away and wakes the new end, reaping and reparenting
touch zombies only.
-/
import LiteBSD.Sched.Resume
import Mathlib.Data.List.Chain

namespace LiteBSD

open Lib

/-! ## Lines of kin -/

/-- Pids with their parents, from a root down. -/
structure Lineage (ks : List (Nat × Nat)) : Prop where
  links : ks.IsChain fun a b => b.2 = a.1
  rising : ks.Pairwise fun a b => a.1 < b.1
  root : ∀ a ∈ ks.head?, a.2 = 0

theorem Lineage.single (n : Nat) : Lineage [(n, 0)] := by
  refine ⟨?_, ?_, ?_⟩ <;> simp

theorem Lineage.snoc {ks : List (Nat × Nat)} {k : Nat × Nat} {n : Nat} (h : Lineage (ks ++ [k]))
    (hn : k.1 < n) : Lineage (ks ++ [k] ++ [(n, k.1)]) := by
  refine ⟨?_, ?_, ?_⟩
  · refine List.isChain_append.mpr ⟨h.links, .singleton _, ?_⟩
    simp
  · refine List.pairwise_append.mpr ⟨h.rising, List.pairwise_singleton _ _, ?_⟩
    intro a ha b hb
    obtain rfl := List.mem_singleton.mp hb
    rcases List.mem_append.mp ha with ha | ha
    · have := (List.pairwise_append.mp h.rising).2.2 a ha k (by simp)
      exact Nat.lt_trans this hn
    · obtain rfl := List.mem_singleton.mp ha
      exact hn
  · intro a ha
    refine h.root a ?_
    cases ks with
    | nil => simpa using ha
    | cons k' ks => simpa using ha

/-- The end of a line is the child of what stands before it. -/
theorem Lineage.last {ks : List (Nat × Nat)} {a b : Nat × Nat} (h : Lineage (ks ++ [a] ++ [b])) :
    Lineage (ks ++ [a]) ∧ b.2 = a.1 := by
  obtain ⟨hl, -, hab⟩ := List.isChain_append.mp h.links
  refine ⟨⟨hl, (List.pairwise_append.mp h.rising).1, ?_⟩, hab a (by simp) b (by simp)⟩
  intro x hx
  refine h.root x ?_
  cases ks with
  | nil => simpa using hx
  | cons k ks => simpa using hx

/-- Nobody in a line has the last one for a parent. -/
theorem Lineage.parent_lt {ks : List (Nat × Nat)} {k : Nat × Nat} (h : Lineage (ks ++ [k])) :
    ∀ a ∈ ks, a.1 < k.1 :=
  fun a ha => (List.pairwise_append.mp h.rising).2.2 a ha k (by simp)

/-- A member of a line that is not its end has a child in it. -/
theorem Lineage.child {ks : List (Nat × Nat)} {k a : Nat × Nat} (h : Lineage (ks ++ [k]))
    (ha : a ∈ ks) : ∃ b ∈ ks ++ [k], b.2 = a.1 := by
  obtain ⟨as, bs, rfl⟩ := List.append_of_mem ha
  have hl := h.links
  rw [List.append_assoc] at hl
  obtain ⟨-, hl, -⟩ := List.isChain_append.mp hl
  cases bs with
  | nil =>
      simp only [List.cons_append, List.nil_append] at hl
      exact ⟨k, by simp, (List.isChain_cons_cons.mp hl).1⟩
  | cons b bs =>
      simp only [List.cons_append] at hl
      exact ⟨b, by simp, (List.isChain_cons_cons.mp hl).1⟩

/-- Every member of a line is the root or has its parent in the line. -/
theorem Lineage.parent {ks : List (Nat × Nat)} (h : Lineage ks) {a : Nat × Nat} (ha : a ∈ ks) :
    a.2 = 0 ∨ ∃ b ∈ ks, a.2 = b.1 ∧ b.1 < a.1 := by
  obtain ⟨as, bs, rfl⟩ := List.append_of_mem ha
  rcases List.eq_nil_or_concat' as with rfl | ⟨as, b, rfl⟩
  · exact Or.inl (h.root a (by simp))
  · have hl := h.links
    have hr := h.rising
    obtain ⟨-, -, hab⟩ := List.isChain_append.mp hl
    refine Or.inr ⟨b, by simp, hab b (by simp) a (by simp), ?_⟩
    exact (List.pairwise_append.mp hr).2.2 b (by simp) a (by simp)

/-- Of two children of one parent, neither is the later one. -/
theorem Lineage.only_child {ks : List (Nat × Nat)} (h : Lineage ks) {x y : Nat × Nat}
    (hx : x ∈ ks) (hy : y ∈ ks) (hxy : x.2 = y.2) (h0 : y.2 ≠ 0) (hbelow : x.2 < x.1) :
    y.1 ≤ x.1 := by
  by_contra hlt
  obtain ⟨as, bs, rfl⟩ := List.append_of_mem hy
  rcases List.eq_nil_or_concat' as with rfl | ⟨as, z, rfl⟩
  · exact h0 (h.root y (by simp))
  obtain ⟨hbefore, hafter, hcross⟩ := List.pairwise_append.mp h.rising
  obtain ⟨-, -, hzy⟩ := List.isChain_append.mp h.links
  have hz : y.2 = z.1 := hzy z (by simp) y (by simp)
  -- `x` stands before `y`, so not after `z`
  have hxz : x.1 ≤ z.1 := by
    rcases List.mem_append.mp hx with hx | hx
    · rcases List.mem_append.mp hx with hx | hx
      · exact Nat.le_of_lt ((List.pairwise_append.mp hbefore).2.2 x hx z (by simp))
      · rw [List.mem_singleton.mp hx]
    · rcases List.mem_cons.mp hx with rfl | hx
      · omega
      · have := List.rel_of_pairwise_cons hafter hx
        omega
  omega

/-! ## The line of a table -/

/-- The processes that are no zombies, in ring order. -/
def alive (T : Table) : List Proc := T.procs.filter fun q => q.state ≠ .zombie

def kin (q : Proc) : Nat × Nat := (q.pid, q.ppid)

/-- The processes alive are the BLOCKED ancestors `l` of the runner `r`. -/
structure LineOf (T : Table) (l : List Proc) (r : Proc) : Prop where
  eq : alive T = l ++ [r]
  blocked : ∀ b ∈ l, b.state = .blocked
  running : r.state = .running
  descent : Lineage ((l ++ [r]).map kin)

/-- The line ends at address `a`. -/
def LineAt (T : Table) (a : Nat) : Prop := ∃ l r, LineOf T l r ∧ r.self = a

theorem mem_alive {T : Table} {q : Proc} : q ∈ alive T ↔ q ∈ T.procs ∧ q.state ≠ .zombie := by
  simp [alive]

section Alive

variable {T : Table} {self : Nat}

theorem alive_spawn (ppid : Nat) : alive (T.spawn ppid) =
    alive T ++ [⟨T.nextObj + 1, T.nextPid, ppid, .running⟩] := by
  simp [alive, Table.spawn]

theorem alive_zombie : alive (T.setState self .zombie) =
    (alive T).filter fun q => q.self ≠ self := by
  obtain ⟨l, n, o⟩ := T
  simp only [alive, Table.setState]
  induction l with
  | nil => rfl
  | cons q l ih =>
      simp only [ne_eq, decide_not, List.filter_filter] at ih ⊢
      by_cases hs : q.self = self
      · simp [hs, ih]
      · by_cases hz : q.state = .zombie <;> simp [hs, hz, ih]

theorem alive_blocked (h : ∀ q ∈ T.procs, q.self = self → q.state ≠ .zombie) :
    alive (T.setState self .blocked) =
      (alive T).map fun q => if q.self = self then { q with state := .blocked } else q := by
  obtain ⟨l, n, o⟩ := T
  simp only [alive, Table.setState] at h ⊢
  induction l with
  | nil => rfl
  | cons q l ih =>
      have hq := h q List.mem_cons_self
      have ih := ih fun r hr => h r (List.mem_cons_of_mem _ hr)
      simp only [ne_eq, decide_not] at ih ⊢
      by_cases hs : q.self = self
      · simp [hs, hq hs, ih]
      · by_cases hz : q.state = .zombie <;> simp [hs, hz, ih]

theorem alive_wake (pid : Nat) : alive (T.wake pid) =
    updateFirst (fun q => q.pid = pid ∧ q.state = .blocked)
      (fun q => { q with state := .running }) (alive T) := by
  refine filter_updateFirst ?_ _
  intro q hq
  simp only [decide_eq_true_eq] at hq
  simp [hq.2]

theorem alive_reparent (pid ppid : Nat) : alive (T.reparent pid ppid) =
    (alive T).map fun q => if q.ppid = pid then { q with ppid := ppid } else q := by
  simp only [alive, Table.reparent, List.filter_map]
  congr 1
  refine List.filter_congr fun q _ => ?_
  simp only [Function.comp_apply]
  split <;> rfl

/-- The address of a dead process is that of no process alive. -/
theorem alive_ne {z : Proc} (hnd : (T.procs.map fun q => q.self).Nodup) (hz : z ∈ T.procs)
    (hzz : z.state = .zombie) : ∀ q ∈ alive T, q.self ≠ z.self := by
  intro q hq hs
  obtain ⟨hq, hqz⟩ := mem_alive.mp hq
  rw [List.inj_on_of_nodup_map hnd hq hz hs] at hqz
  exact hqz hzz

theorem alive_reap {z : Proc} (hnd : (T.procs.map fun q => q.self).Nodup) (hz : z ∈ T.procs)
    (hzz : z.state = .zombie) : alive (T.reap z.self) = alive T := by
  have hne := alive_ne hnd hz hzz
  simp only [alive, Table.reap, List.filter_filter] at hne ⊢
  refine List.filter_congr fun q hq => ?_
  by_cases hqz : q.state = .zombie
  · simp [hqz]
  · simp [hqz, hne q (by simp [hq, hqz])]

/-- Killing a zombie again changes nobody alive. -/
theorem alive_rekill {z : Proc} (hnd : (T.procs.map fun q => q.self).Nodup) (hz : z ∈ T.procs)
    (hzz : z.state = .zombie) : alive (T.setState z.self .zombie) = alive T := by
  rw [alive_zombie]
  refine List.filter_eq_self.mpr fun q hq => ?_
  simpa using alive_ne hnd hz hzz q hq

end Alive

/-! ## How the line changes -/

section Line

variable {T : Table} {l : List Proc} {p : Proc}

theorem LineOf.mem (h : LineOf T l p) : p ∈ T.procs :=
  (mem_alive.mp (h.eq ▸ (by simp : p ∈ l ++ [p]))).1

/-- The ancestors stand at other addresses than the runner. -/
theorem LineOf.ne_self (h : LineOf T l p) (hnd : (T.procs.map fun q => q.self).Nodup) :
    ∀ b ∈ l, b.self ≠ p.self := by
  intro b hb hs
  have hsub : (alive T).Sublist T.procs := List.filter_sublist
  have hnd' := hnd.sublist (hsub.map _)
  rw [h.eq, List.map_append] at hnd'
  exact (List.nodup_append.mp hnd').2.2 b.self (List.mem_map_of_mem hb) p.self (by simp) hs

/-- Anything RUNNING is the end of the line. -/
theorem LineOf.runner (h : LineOf T l p) : RunnerAt T p.self := by
  intro q hq hr
  have hmem : q ∈ alive T := mem_alive.mpr ⟨hq, by simp [hr]⟩
  rw [h.eq] at hmem
  rcases List.mem_append.mp hmem with hm | hm
  · rw [h.blocked q hm] at hr
    cases hr
  · rw [List.mem_singleton.mp hm]

/-- A process alive other than the runner has a child alive. -/
theorem LineOf.zombie_of_childless (h : LineOf T l p) {q : Proc} (hq : q ∈ T.procs)
    (hne : q.self ≠ p.self) (hno : ∀ r ∈ alive T, r.ppid ≠ q.pid) : q.state = .zombie := by
  by_contra hz
  have hmem : q ∈ alive T := mem_alive.mpr ⟨hq, hz⟩
  rw [h.eq] at hmem
  rcases List.mem_append.mp hmem with hm | hm
  · have hk := h.descent
    simp only [List.map_append, List.map_cons, List.map_nil] at hk
    obtain ⟨k, hkm, hkp⟩ := hk.child (List.mem_map_of_mem hm)
    rw [← List.map_singleton, ← List.map_append, ← h.eq] at hkm
    obtain ⟨r, hr, rfl⟩ := List.mem_map.mp hkm
    exact hno r hr hkp
  · exact hne (by rw [List.mem_singleton.mp hm])

theorem LineOf.fork (h : LineOf T l p) (hnd : (T.procs.map fun q => q.self).Nodup)
    (hold : p.self < T.nextObj) (hpid : p.pid < T.nextPid) :
    LineOf ((T.spawn p.pid).setState p.self .blocked) (l ++ [{ p with state := .blocked }])
      ⟨T.nextObj + 1, T.nextPid, p.pid, .running⟩ := by
  have hne := h.ne_self hnd
  refine ⟨?_, ?_, rfl, ?_⟩
  · rw [alive_blocked, alive_spawn, h.eq]
    · have hl : l.map (fun q => if q.self = p.self then { q with state := .blocked } else q) = l := by
        refine (List.map_congr_left fun q hq => ?_).trans (List.map_id l)
        simp [hne q hq]
      have hc : T.nextObj + 1 ≠ p.self := by omega
      simp [hl, hc]
    · intro q hq hs
      rcases mem_spawn.mp hq with hq | rfl
      · rw [List.inj_on_of_nodup_map hnd hq h.mem hs, h.running]
        simp
      · simp
  · intro b hb
    rcases List.mem_append.mp hb with hb | hb
    · exact h.blocked b hb
    · rw [List.mem_singleton.mp hb]
  · have hk := h.descent
    simp only [List.map_append, List.map_cons, List.map_nil] at hk ⊢
    exact hk.snoc hpid

/-- The processes alive after the death of the end of the line, before
anybody is woken. -/
theorem LineOf.dead (h : LineOf T l p) (hnd : (T.procs.map fun q => q.self).Nodup) :
    alive (T.setState p.self .zombie) = l := by
  rw [alive_zombie, h.eq, List.filter_append]
  have hl : (l.filter fun q => decide (q.self ≠ p.self)) = l :=
    List.filter_eq_self.mpr fun q hq => by simpa using h.ne_self hnd q hq
  rw [hl]
  simp

/-- The death of the root leaves nobody alive. -/
theorem LineOf.exit_root (h : LineOf T [] p) (hnd : (T.procs.map fun q => q.self).Nodup) :
    p.ppid = 0 ∧ alive (T.exit p) = [] := by
  have h0 : p.ppid = 0 := h.descent.root (kin p) (by simp)
  refine ⟨h0, ?_⟩
  simp only [Table.exit, if_pos h0]
  rw [alive_reparent, h.dead hnd]
  rfl

/-- The death of the end of a longer line wakes its parent, the new end. -/
theorem LineOf.exit {b : Proc} (h : LineOf T (l ++ [b]) p)
    (hnd : (T.procs.map fun q => q.self).Nodup) (hbelow : Below T) :
    p.ppid ≠ 0 ∧ p.ppid = b.pid ∧ LineOf (T.exit p) l { b with state := .running } := by
  have hk := h.descent
  simp only [List.map_append, List.map_cons, List.map_nil] at hk
  obtain ⟨hk', hpar⟩ := hk.last
  have hpar : p.ppid = b.pid := hpar
  have hbm : b ∈ T.procs := (mem_alive.mp (h.eq ▸ (by simp : b ∈ l ++ [b] ++ [p]))).1
  have hbb : b.state = .blocked := h.blocked b (by simp)
  have h0 : p.ppid ≠ 0 := by
    have := hbelow b hbm
    omega
  refine ⟨h0, hpar, ?_, fun c hc => h.blocked c (List.mem_append_left _ hc), rfl, ?_⟩
  · simp only [Table.exit, if_neg h0]
    rw [alive_reparent, alive_wake, h.dead hnd, updateFirst_append_cons]
    · -- nobody in the line has the dead process for a parent
      have hpp : ∀ q ∈ l ++ [b], q.ppid ≠ p.pid := by
        intro q hq
        have hqm : q ∈ T.procs := (mem_alive.mp (h.eq ▸ List.mem_append_left _ hq)).1
        have hlt := hk.parent_lt (kin q) (by
          rw [← List.map_singleton, ← List.map_append]
          exact List.mem_map_of_mem hq)
        have := hbelow q hqm
        simp only [kin] at hlt
        omega
      have hl : l.map (fun q => if q.ppid = p.pid then { q with ppid := p.ppid } else q) = l := by
        refine (List.map_congr_left fun q hq => ?_).trans (List.map_id l)
        simp [hpp q (List.mem_append_left _ hq)]
      simp [hl, hpp b (by simp)]
    · intro c hc
      have := hk'.parent_lt (kin c) (List.mem_map_of_mem hc)
      simp only [kin] at this
      simp only [decide_eq_true_eq, not_and]
      omega
    · simp [hpar, hbb]
  · simp only [List.map_append, List.map_cons, List.map_nil]
    exact hk'

end Line

/-! ## Effects on the line -/

section Effects

variable {T T' : Table} {p : Proc} {e : Event}

theorem LineAt.lineOf (h : LineAt T p.self) (hnd : (T.procs.map fun q => q.self).Nodup)
    (hp : p ∈ T.procs) : ∃ l, LineOf T l p := by
  obtain ⟨l, r, hl, hs⟩ := h
  have : r = p := List.inj_on_of_nodup_map hnd hl.mem hp hs
  exact ⟨l, this ▸ hl⟩

theorem LineOf.of_alive {l : List Proc} (h : LineOf T l p) (ha : alive T' = alive T) :
    LineOf T' l p := ⟨ha.trans h.eq, h.blocked, h.running, h.descent⟩

/-- A new shell when nobody is alive. -/
theorem lineAt_shell (h : alive T = []) : LineAt (T.spawn 0) (T.nextObj + 1) :=
  ⟨[], ⟨T.nextObj + 1, T.nextPid, 0, .running⟩,
    ⟨by rw [alive_spawn, h], by simp, rfl, Lineage.single T.nextPid⟩, rfl⟩

/-- The death of the runner: the line has a new end, or it was the root. -/
theorem LineAt.exit (h : LineAt T p.self) (hnd : (T.procs.map fun q => q.self).Nodup)
    (hp : p ∈ T.procs) (hbelow : Below T) :
    (p.ppid ≠ 0 ∧ ∃ l, ∃ b ∈ T.procs, b.state = .blocked ∧ b.pid = p.ppid ∧
      LineOf (T.exit p) l { b with state := .running }) ∨
    (p.ppid = 0 ∧ alive (T.exit p) = []) := by
  obtain ⟨l, hl⟩ := h.lineOf hnd hp
  rcases List.eq_nil_or_concat' l with rfl | ⟨l, b, rfl⟩
  · exact Or.inr (hl.exit_root hnd)
  · obtain ⟨h0, hb, hl'⟩ := hl.exit hnd hbelow
    have hbm : b ∈ T.procs := (mem_alive.mp (hl.eq ▸ (by simp : b ∈ l ++ [b] ++ [p]))).1
    exact Or.inl ⟨h0, l, b, hbm, hl.blocked b (by simp), hb.symm, hl'⟩

/-- An effect on a line whose runner is current.  A kill of another process
must spare the parents of processes alive, which is everybody else in the
line. -/
theorem effect_line (he : Effect T p e T') (h : LineAt T p.self)
    (hnd : (T.procs.map fun q => q.self).Nodup) (hp : p ∈ T.procs) (hbelow : Below T)
    (hold : p.self < T.nextObj) (hfork : e = .call .fork → p.pid < T.nextPid)
    (hkill : ∀ pid sig q, e = .call (.kill pid sig) → sig ≠ 0 →
      (T.procs.find? fun q => q.pid = pid) = some q → q.self ≠ p.self →
      ∀ r ∈ alive T, r.ppid ≠ q.pid) :
    LineAt T' p.self ∨ (e = .call .fork ∧ ∃ a, LineAt T' a) ∨
      ((∃ z ∈ T'.procs, z.self = p.self ∧ z.state = .zombie) ∧
        ((∃ a, LineAt T' a) ∨ alive T' = [] ∧ ∃ pid sig, e = .call (.kill pid sig))) := by
  obtain ⟨l, hl⟩ := h.lineOf hnd hp
  have hdead : p.ppid ≠ 0 → ∃ a, LineAt (T.exit p) a := by
    intro h0
    rcases h.exit hnd hp hbelow with ⟨-, l, b, -, -, -, hb⟩ | ⟨h0', -⟩
    · exact ⟨_, l, _, hb, rfl⟩
    · exact absurd h0' h0
  have hroot : p.ppid = 0 → alive (T.exit p) = [] := by
    intro h0
    rcases h.exit hnd hp hbelow with ⟨h0', -⟩ | ⟨-, hb⟩
    · exact absurd h0 h0'
    · exact hb
  have hshell : p.ppid = 0 → (∃ z ∈ ((T.exit p).spawn 0).procs, z.self = p.self ∧
      z.state = .zombie) ∧ ∃ a, LineAt ((T.exit p).spawn 0) a := by
    intro h0
    obtain ⟨z, hz, hzs⟩ := exit_zombie hp
    exact ⟨⟨z, mem_spawn.mpr (Or.inl hz), hzs⟩, _, lineAt_shell (hroot h0)⟩
  cases he with
  | tick => exact Or.inl h
  | execve => exact Or.inl h
  | other => exact Or.inl h
  | wait => exact Or.inl h
  | reap hq _ hz => exact Or.inl ⟨l, p, hl.of_alive (alive_reap hnd hq hz), rfl⟩
  | fork => exact Or.inr (Or.inl ⟨rfl, _, _, _, hl.fork hnd hold (hfork rfl), rfl⟩)
  | exit h0 => exact Or.inr (Or.inr ⟨exit_zombie hp, Or.inl (hdead h0)⟩)
  | exitRoot h0 => exact Or.inr (Or.inr ⟨(hshell h0).1, Or.inl (hshell h0).2⟩)
  | fault h0 => exact Or.inr (Or.inr ⟨exit_zombie hp, Or.inl (hdead h0)⟩)
  | faultRoot h0 => exact Or.inr (Or.inr ⟨(hshell h0).1, Or.inl (hshell h0).2⟩)
  | killNone _ => exact Or.inl h
  | killSelf _ _ =>
      refine Or.inr (Or.inr ⟨exit_zombie hp, ?_⟩)
      by_cases h0 : p.ppid = 0
      · exact Or.inr ⟨hroot h0, _, _, rfl⟩
      · exact Or.inl (hdead h0)
  | @kill pid sig q hsig hfind hne =>
      have hq : q ∈ T.procs := List.mem_of_find?_eq_some hfind
      have hz := hl.zombie_of_childless hq hne (hkill pid sig q rfl hsig hfind hne)
      exact Or.inl ⟨l, p, hl.of_alive (alive_rekill hnd hq hz), rfl⟩

end Effects

/-! ## Runs without `kill` -/

/-- The line ends at the current process. -/
structure ChainInv (s : Sched) : Prop where
  wf : WF s
  below : Below s.table
  line : ∀ c, s.current = some c → LineAt s.table c
  boot : s.current = none → (∀ t ∈ s.ring, t.state = .running) ∧ ∃ a, LineAt s.table a

/-- `schedule` picks the end of the line. -/
theorem Dispatched.line {s s' : Sched} {frame : Frame} (h : Dispatched s s' frame) {a : Nat}
    (ha : LineAt s.table a) : ∀ c, s'.current = some c → LineAt s'.table c := by
  intro c hc
  obtain ⟨l, r, hl, rfl⟩ := ha
  rw [h.table]
  have hrc : r.self = c := by
    refine h.runner hl.runner c hc r ?_ hl.running
    rw [h.table]
    exact hl.mem
  exact ⟨l, r, hl, hrc⟩

theorem ChainInv.of_dispatched {s s' : Sched} {frame : Frame} (h : Dispatched s s' frame)
    (hb : Below s.table) {a : Nat} (ha : LineAt s.table a) : ChainInv s' where
  wf := h.wf
  below := by rw [h.table]; exact hb
  line := h.line ha
  boot := fun hc => absurd hc h.current_some

theorem boot_line {m : Machine} (h : MachineBoot m) : ∃ a, LineAt m.sched.table a := by
  obtain ⟨init, obj, -, hs, -⟩ := h
  rw [hs]
  refine ⟨obj + 1, [], ⟨obj + 1, 1, 0, .running⟩, ⟨?_, by simp, rfl, Lineage.single 1⟩, rfl⟩
  simp [alive, Sched.table, Sched.procs, createUserTask, addTask]

theorem ChainInv.init {m : Machine} (h : MachineBoot m) : ChainInv m.sched := by
  have hr := RunnerInv.init h
  refine ⟨hr.wf, hr.below, fun c hc => ?_, fun hn => ⟨(hr.boot hn).1, boot_line h⟩⟩
  obtain ⟨init, obj, -, hs, -⟩ := h
  rw [hs] at hc
  simp [createUserTask, addTask] at hc

/-- The runner of a well-formed scheduler was made from the supply. -/
theorem WF.self_lt {s : Sched} (h : WF s) {p : Proc} (hp : p ∈ s.procs) : p.self < s.nextObj := by
  obtain ⟨u, hu, rfl⟩ := Sched.mem_procs.mp hp
  exact (h.old u hu).1

theorem ChainInv.step {m m' : Machine} {t : Trap} (h : ChainInv m.sched)
    (hg : PidFresh m t ∧ NoKill t) (hs : MachineStep m t m') : ChainInv m'.sched := by
  cases hc : m.sched.current with
  | none =>
      obtain ⟨hall, a, ha⟩ := h.boot hc
      obtain ⟨-, hd⟩ := boot_trap h.wf hc hall hs
      exact .of_dispatched hd h.below ha
  | some c =>
      have hown : ∀ p ∈ m.sched.procs, p.self = c → p.state = .zombie → p.ppid ≠ p.pid :=
        fun p hp _ _ => Nat.ne_of_lt (h.below p hp)
      obtain ⟨p, hp, rfl, s, hws, hsc, heff, hend⟩ := trap_cases h.wf hc hown hs
      obtain ⟨hfork, hroot⟩ := hg.1 p hp hc
      have hb : Below s.table := h.below.effect heff hp (fun he => (hfork he).1) hroot
      have hline := effect_line heff (h.line _ hc) (procs_nodup h.wf) hp h.below (h.wf.self_lt hp)
        (fun he => (hfork he).1) fun pid sig _ he => absurd he (hg.2 pid sig)
      have hsome : ∃ a, LineAt s.table a := by
        rcases hline with ha | ⟨-, ha⟩ | ⟨-, ha | ⟨-, pid, sig, he⟩⟩
        · exact ⟨_, ha⟩
        · exact ha
        · exact ha
        · exact absurd he (hg.2 pid sig)
      obtain ⟨a, ha⟩ := hsome
      rcases hend with ⟨hd, -⟩ | ⟨hr, -, hbad⟩
      · exact .of_dispatched hd hb ha
      · rw [hr.eq]
        refine ⟨hws, hb, fun c' hc' => ?_, fun hn => ?_⟩
        · rw [hsc] at hc'
          cases hc'
          rcases hline with ha | ⟨hf, -⟩ | ⟨⟨z, hz, hzs, hzz⟩, -⟩
          · exact ha
          · have := hfork hf
            exact absurd (int32_pos.mpr (Or.inl ⟨by omega, this.2⟩)) (hbad hf)
          · obtain ⟨u, hu, rfl⟩ := Sched.mem_procs.mp hz
            exact absurd hzz (hr.alive _ hsc u hu hzs)
        · rw [hsc] at hn
          cases hn

theorem chain_inv {m : Machine}
    (hm : machineSystem.ReachVia (fun m t => PidFresh m t ∧ NoKill t) m) : ChainInv m.sched :=
  System.ReachVia.invariant (I := fun m => ChainInv m.sched) (fun _ h => .init h)
    (fun _ _ _ h hg hs => h.step hg hs) hm

/-! ## The chain, as a statement about processes -/

/-- The processes that are no zombies form one parent chain. -/
structure VforkChain (l : List Proc) : Prop where
  links : (l.filter fun q => q.state ≠ .zombie).IsChain fun a b => b.ppid = a.pid
  oneRunning : ∃! t, t ∈ l ∧ t.state = .running
  oneChild : ∀ b ∈ l, b.state = .blocked → ∃! c, c ∈ l ∧ c.state ≠ .zombie ∧ c.ppid = b.pid
  oneRoot : ∃! r, r ∈ l ∧ r.state ≠ .zombie ∧ r.ppid = 0

theorem isChain_of_map {α β : Type} {f : α → β} {R : β → β → Prop} {l : List α}
    (h : (l.map f).IsChain R) : l.IsChain fun a b => R (f a) (f b) :=
  (List.isChain_map f).mp h

/-- One pid is one process alive. -/
theorem LineOf.eq_of_pid {T : Table} {l : List Proc} {p x y : Proc} (h : LineOf T l p)
    (hx : x ∈ alive T) (hy : y ∈ alive T) (hxy : x.pid = y.pid) : x = y := by
  have hr := h.descent.rising
  rw [← h.eq, List.pairwise_map] at hr
  refine List.inj_on_of_nodup_map (f := fun q : Proc => q.pid) ?_ hx hy hxy
  exact List.pairwise_map.mpr (hr.imp fun hab => Nat.ne_of_lt hab)

theorem LineOf.vforkChain {T : Table} {l : List Proc} {p : Proc} (h : LineOf T l p)
    (hbelow : Below T) : VforkChain T.procs := by
  have hd := h.descent
  rw [← h.eq] at hd
  have hpid : ∀ q ∈ alive T, q.ppid < q.pid := fun q hq => hbelow q (mem_alive.mp hq).1
  refine ⟨isChain_of_map hd.links, ⟨p, ⟨h.mem, h.running⟩, ?_⟩, ?_, ?_⟩
  · rintro q ⟨hq, hqr⟩
    have hqa : q ∈ alive T := mem_alive.mpr ⟨hq, by simp [hqr]⟩
    rw [h.eq] at hqa
    rcases List.mem_append.mp hqa with hm | hm
    · rw [h.blocked q hm] at hqr
      cases hqr
    · exact List.mem_singleton.mp hm
  · intro b hb hbb
    have hba : b ∈ alive T := mem_alive.mpr ⟨hb, by simp [hbb]⟩
    have hbl : b ∈ l := by
      rw [h.eq] at hba
      rcases List.mem_append.mp hba with hm | hm
      · exact hm
      · rw [List.mem_singleton.mp hm, h.running] at hbb
        cases hbb
    have hk := h.descent
    simp only [List.map_append, List.map_cons, List.map_nil] at hk
    obtain ⟨k, hkm, hkp⟩ := hk.child (List.mem_map_of_mem hbl)
    rw [← List.map_singleton, ← List.map_append, ← h.eq] at hkm
    obtain ⟨c, hc, rfl⟩ := List.mem_map.mp hkm
    refine ⟨c, ⟨(mem_alive.mp hc).1, (mem_alive.mp hc).2, hkp⟩, ?_⟩
    rintro d ⟨hdm, hdz, hdp⟩
    have hda : d ∈ alive T := mem_alive.mpr ⟨hdm, hdz⟩
    have hcp : c.ppid = b.pid := hkp
    have hpos := hpid b hba
    have h₁ : c.pid ≤ d.pid := hd.only_child (x := kin d) (y := kin c)
      (List.mem_map_of_mem hda) (List.mem_map_of_mem hc) (hdp.trans hcp.symm)
      (by simp only [kin]; omega) (hpid d hda)
    have h₂ : d.pid ≤ c.pid := hd.only_child (x := kin c) (y := kin d)
      (List.mem_map_of_mem hc) (List.mem_map_of_mem hda) (hcp.trans hdp.symm)
      (by simp only [kin]; omega) (hpid c hc)
    exact h.eq_of_pid hda hc (by omega)
  · obtain ⟨r, tl, hr⟩ := List.exists_cons_of_ne_nil (by simp [h.eq] : alive T ≠ [])
    have hra : r ∈ alive T := by simp [hr]
    have hr0 : r.ppid = 0 := hd.root (kin r) (by simp [hr])
    refine ⟨r, ⟨(mem_alive.mp hra).1, (mem_alive.mp hra).2, hr0⟩, ?_⟩
    rintro q ⟨hq, hqz, hq0⟩
    have hqa : q ∈ alive T := mem_alive.mpr ⟨hq, hqz⟩
    -- behind the root everybody has a parent in the line, with a pid above 0
    rw [hr] at hqa hd
    rcases List.mem_cons.mp hqa with rfl | hqt
    · rfl
    · obtain ⟨as, bs, rfl⟩ := List.append_of_mem hqt
      have hl := hd.links
      rw [List.map_cons, List.map_append, List.map_cons] at hl
      obtain ⟨x, hx, hxq⟩ : ∃ x ∈ r :: as, q.ppid = x.pid := by
        rcases List.eq_nil_or_concat' as with rfl | ⟨as, x, rfl⟩
        · exact ⟨r, by simp, (List.isChain_cons_cons.mp hl).1⟩
        · rw [List.map_append, List.append_assoc, ← List.cons_append] at hl
          obtain ⟨-, hl, -⟩ := List.isChain_append.mp hl
          exact ⟨x, by simp, (List.isChain_cons_cons.mp hl).1⟩
      have hxa : x ∈ alive T := by
        rw [hr]
        rcases List.mem_cons.mp hx with rfl | hx
        · exact List.mem_cons_self
        · exact List.mem_cons_of_mem _ (List.mem_append_left _ hx)
      have := hpid x hxa
      omega

/-- The death of `p` made exactly one task runnable: its parent, which was
BLOCKED, or for a root the new shell. -/
def WakesOne (m : Machine) (p : Proc) (m' : Machine) : Prop :=
  ∃ q ∈ m'.sched.procs, q.state = .running ∧
    (∀ q' ∈ m'.sched.procs, q'.state = .running → q' = q) ∧
    (p.ppid ≠ 0 → q.pid = p.ppid ∧ ∃ b ∈ m.sched.procs, b.state = .blocked ∧ b.self = q.self) ∧
    (p.ppid = 0 → q = ⟨m.sched.nextObj + 1, m.sched.nextPid, 0, .running⟩)

theorem LineOf.unique_running {T : Table} {l : List Proc} {r : Proc} (h : LineOf T l r) :
    ∀ q ∈ T.procs, q.state = .running → q = r := by
  intro q hq hqr
  have hqa : q ∈ alive T := mem_alive.mpr ⟨hq, by simp [hqr]⟩
  rw [h.eq] at hqa
  rcases List.mem_append.mp hqa with hm | hm
  · rw [h.blocked q hm] at hqr
    cases hqr
  · exact List.mem_singleton.mp hm

/-- Where the line ends after the death of its runner. -/
theorem ChainInv.death {s : Sched} (h : ChainInv s) {p : Proc} (hp : p ∈ s.procs)
    (hc : s.current = some p.self) {e : Event} {T' : Table} (he : Effect s.table p e T')
    (hdie : e = .fault ∨ ∃ status, e = .call (.exit status)) :
    ∃ l q, LineOf T' l q ∧
      (p.ppid ≠ 0 → q.pid = p.ppid ∧ ∃ b ∈ s.procs, b.state = .blocked ∧ b.self = q.self) ∧
      (p.ppid = 0 → q = ⟨s.nextObj + 1, s.nextPid, 0, .running⟩) := by
  have hobj : (s.table.exit p).nextObj = s.nextObj ∧ (s.table.exit p).nextPid = s.nextPid := by
    simp only [Table.exit]
    split <;> exact ⟨rfl, rfl⟩
  have hT : (p.ppid ≠ 0 ∧ T' = s.table.exit p) ∨ (p.ppid = 0 ∧ T' = (s.table.exit p).spawn 0) := by
    rcases hdie with rfl | ⟨status, rfl⟩
    · cases he with
      | fault h0 => exact Or.inl ⟨h0, rfl⟩
      | faultRoot h0 => exact Or.inr ⟨h0, rfl⟩
    · cases he with
      | exit h0 => exact Or.inl ⟨h0, rfl⟩
      | exitRoot h0 => exact Or.inr ⟨h0, rfl⟩
  rcases (h.line _ hc).exit (procs_nodup h.wf) hp h.below with
    ⟨h0, l, b, hb, hbb, hbp, hl⟩ | ⟨h0, hnone⟩
  · rcases hT with ⟨-, rfl⟩ | ⟨h0', -⟩
    · exact ⟨l, _, hl, fun _ => ⟨hbp, b, hb, hbb, rfl⟩, fun h0' => absurd h0' h0⟩
    · exact absurd h0' h0
  · rcases hT with ⟨h0', -⟩ | ⟨-, rfl⟩
    · exact absurd h0 h0'
    · refine ⟨[], ⟨s.nextObj + 1, s.nextPid, 0, .running⟩, ⟨?_, by simp, rfl, Lineage.single _⟩,
        fun h0' => absurd h0 h0', fun _ => rfl⟩
      rw [alive_spawn, hnone, hobj.1, hobj.2]

theorem ChainInv.wakesOne {m m' : Machine} {t : Trap} {p : Proc} (h : ChainInv m.sched)
    (hp : p ∈ m.sched.procs) (hc : m.sched.current = some p.self) (hs : MachineStep m t m')
    (hdie : t.event = .fault ∨ ∃ status, t.event = .call (.exit status)) : WakesOne m p m' := by
  have hown : ∀ q ∈ m.sched.procs, q.self = p.self → q.state = .zombie → q.ppid ≠ q.pid :=
    fun q hq _ _ => Nat.ne_of_lt (h.below q hq)
  obtain ⟨p', hp', hps, s, hws, hsc, heff, hend⟩ := trap_cases h.wf hc hown hs
  obtain rfl : p' = p := List.inj_on_of_nodup_map (procs_nodup h.wf) hp' hp hps
  obtain ⟨l, q, hl, hpar, hroot⟩ := h.death hp hc heff hdie
  have hprocs : m'.sched.procs = s.table.procs := by
    rcases hend with ⟨hd, -⟩ | ⟨hr, -⟩
    · exact hd.procs
    · rw [hr.eq]
      rfl
  refine ⟨q, hprocs ▸ hl.mem, hl.running, ?_, hpar, hroot⟩
  rw [hprocs]
  exact hl.unique_running

/-- In every run without `kill` in which pids stay fresh the tasks alive form
one parent chain, and a death makes exactly one task runnable. -/
theorem vfork_chain_while_pids_fresh {m : Machine}
    (hm : machineSystem.ReachVia (fun m t => PidFresh m t ∧ NoKill t) m) :
    VforkChain m.sched.procs ∧
      ∀ p ∈ m.sched.procs, m.sched.current = some p.self → ∀ t m', MachineStep m t m' →
        (t.event = .fault ∨ ∃ status, t.event = .call (.exit status)) → WakesOne m p m' := by
  have h := chain_inv hm
  refine ⟨?_, fun p hp hc t m' hs hdie => h.wakesOne hp hc hs hdie⟩
  have hline : ∃ a, LineAt m.sched.table a := by
    cases hc : m.sched.current with
    | none => exact (h.boot hc).2
    | some c => exact ⟨c, h.line c hc⟩
  obtain ⟨a, l, r, hl, -⟩ := hline
  exact hl.vforkChain h.below

/-- The BLOCKED shell that was returned to forks again. -/
theorem fork_again_at_int_max {obj eip eax : Nat} (hobj : 3 ≤ obj) :
    syscallHandler ⟨[shellTask .blocked eip eax, childTask 2147483648 obj .running 0], some 2,
        2147483649, 1, 0, obj + 2⟩ ⟨1, 0, 5⟩ .fork =
      (⟨[shellTask .blocked eip eax, childTask 2147483648 obj .running 0,
          childTask 2147483649 (obj + 2) .running 0], some 2, 2147483650, 1, 0, obj + 2 + 2⟩,
        ⟨1, 0, 2147483649⟩) := by
  have h2 : obj + 1 ≠ 2 := by omega
  have h4 : obj + 2 + 1 ≠ 2 := by omega
  simp [syscallHandler, sysCall, forkTask, Sched.currentTask, shellTask, addTask,
    Sched.setTask, leaveCall, Sched.currentZombie, Call.isWait4, int32, childTask, ofInt32, u32,
    h2, h4]

/-- After the fork with the pid 2³¹ the BLOCKED shell goes on and forks
again: two tasks are RUNNING. -/
theorem two_runners_without_kill :
    ¬∀ m, machineSystem.ReachVia (fun _ t => NoKill t) m → VforkChain m.sched.procs := by
  intro hall
  obtain ⟨obj, eip, eax, regs, hobj, hreach⟩ := reach_aloneAt 2147483646 (by omega)
  have h₁ := reach_call hreach .fork 5 (by simp) (by simp [aloneAt]) (fork_at_int_max hobj)
  have h₂ := reach_call h₁ .fork 5 (by simp) (by simp) (fork_again_at_int_max hobj)
  obtain ⟨t, -, huniq⟩ := (hall _ h₂).oneRunning
  have e₁ := huniq (childTask 2147483648 obj .running 0).toProc ⟨by simp [Sched.procs], rfl⟩
  have e₂ := huniq (childTask 2147483649 (obj + 2) .running 0).toProc ⟨by simp [Sched.procs], rfl⟩
  have := congrArg Proc.pid (e₁.trans e₂.symm)
  simp [childTask] at this

/-- The chain of the shell and its first child, of which the exit wakes the
shell. -/
theorem vfork_chain_of_first_child :
    machineSystem.ReachVia (fun m t => PidFresh m t ∧ NoKill t) firstFork ∧ VforkChain firstFork.sched.procs ∧
      WakesOne firstFork (childTask 2 3 .running 0).toProc firstExit := by
  have htick : machineSystem.ReachVia (fun m t => PidFresh m t ∧ NoKill t) ⟨aloneAt 2 3 0 0, ⟨1, 0, 0⟩⟩ := by
    refine .step (.init bootMachine_boot) ⟨?_, ?_⟩ bootMachine_tick
    · intro p _ hp
      simp [bootMachine, createUserTask, addTask] at hp
    · intro pid sig
      simp
  have hfork : machineSystem.ReachVia (fun m t => PidFresh m t ∧ NoKill t) firstFork := by
    refine .step htick ⟨?_, ?_⟩ firstFork_step
    · intro p hp _
      simp [Sched.procs, aloneAt, shellTask] at hp
      simp [hp, aloneAt]
    · intro pid sig
      simp
  obtain ⟨hchain, hwakes⟩ := vfork_chain_while_pids_fresh hfork
  refine ⟨hfork, hchain, hwakes _ ?_ rfl _ _ firstExit_step (.inr ⟨0, rfl⟩)⟩
  exact List.mem_map_of_mem (List.mem_cons_of_mem _ List.mem_cons_self)

end LiteBSD
