/-
# `LiteBSD.Sched.Orphans` — parent links and `kill`

A task that dies in `task_exit` hands its children to its own parent.  A
task killed by ANOTHER one does not go through `task_exit`: `sys_kill` only
sets its state, and a child of it keeps the pid of a dead parent.  As long as
no kill is aimed at the parent of a living task, parent links never dangle:
everybody's parent is 0 or alive.

With `kill` around, the root can die without a successor.  Then nobody is
alive, a zombie is resumed, and it may fork or exit; the line of
`LiteBSD.Sched.Chain` starts again from there.
-/
import LiteBSD.Sched.Chain

namespace LiteBSD

open Lib

/-- Everybody, dead or alive, has parent 0 or a living one. -/
def Kept (T : Table) : Prop := ∀ q ∈ T.procs, q.ppid = 0 ∨ ∃ r ∈ alive T, r.pid = q.ppid

/-- A kill of another task is not aimed at the parent of a living one. -/
def SparesParents (m : Machine) (t : Trap) : Prop :=
  ∀ pid sig q, t.event = .call (.kill pid sig) → sig ≠ 0 →
    (m.sched.procs.find? fun q => q.pid = pid) = some q → m.sched.current ≠ some q.self →
    ∀ r ∈ m.sched.procs, r.state ≠ .zombie → r.ppid ≠ q.pid

section Kept

variable {T : Table} {p : Proc}

/-- After a death the others alive are alive still, under the same pids. -/
theorem alive_exit_pids : (alive (T.exit p)).map (fun q => q.pid) =
    ((alive T).filter fun q => q.self ≠ p.self).map fun q => q.pid := by
  have hrep : ∀ U : Table, (alive (U.reparent p.pid p.ppid)).map (fun q => q.pid) =
      (alive U).map fun q => q.pid := by
    intro U
    rw [alive_reparent, List.map_map]
    refine List.map_congr_left fun q _ => ?_
    simp only [Function.comp_apply]
    split <;> rfl
  simp only [Table.exit]
  rw [hrep, ← alive_zombie]
  split
  · rfl
  · rw [alive_wake]
    refine map_eq_of_forall₂ (R := fun a b : Proc => b.pid = a.pid) (fun _ _ h => h) ?_
    refine updateFirst_forall₂ ?_ ?_ _
    · exact fun _ => rfl
    · exact fun _ => rfl

theorem Kept.exit (h : Kept T) (hnd : (T.procs.map fun q => q.self).Nodup) (hp : p ∈ T.procs)
    (hbelow : Below T) : Kept (T.exit p) := by
  -- a living process other than the dead one still answers to its pid
  have hsurv : ∀ x ∈ alive T, x.pid ≠ p.pid → ∃ r ∈ alive (T.exit p), r.pid = x.pid := by
    intro x hx hne
    have hxs : x.self ≠ p.self := fun hs =>
      hne (by rw [List.inj_on_of_nodup_map hnd (mem_alive.mp hx).1 hp hs])
    have : x.pid ∈ (alive (T.exit p)).map fun q => q.pid := by
      rw [alive_exit_pids]
      exact List.mem_map_of_mem (List.mem_filter.mpr ⟨hx, by simpa using hxs⟩)
    obtain ⟨r, hr, hrp⟩ := List.mem_map.mp this
    exact ⟨r, hr, hrp⟩
  intro q hq
  obtain ⟨r, hr, -, -, ⟨hne, hpp⟩ | ⟨-, hpp⟩⟩ := mem_exit hq
  · rw [hpp]
    rcases h r hr with h0 | ⟨x, hx, hxp⟩
    · exact Or.inl h0
    · rw [← hxp] at hne ⊢
      exact Or.inr (hsurv x hx hne)
  · rw [hpp]
    rcases h p hp with h0 | ⟨x, hx, hxp⟩
    · exact Or.inl h0
    · have := hbelow p hp
      rw [← hxp]
      exact Or.inr (hsurv x hx (by omega))

theorem Kept.spawn_zero (h : Kept T) : Kept (T.spawn 0) := by
  intro q hq
  rcases mem_spawn.mp hq with hq | rfl
  · rcases h q hq with h0 | ⟨x, hx, hxp⟩
    · exact Or.inl h0
    · exact Or.inr ⟨x, by rw [alive_spawn]; exact List.mem_append_left _ hx, hxp⟩
  · exact Or.inl rfl

theorem Kept.fork (h : Kept T) (hp : p ∈ T.procs) :
    Kept ((T.spawn p.pid).setState p.self .blocked) := by
  have hpm : { p with state := .blocked } ∈ alive ((T.spawn p.pid).setState p.self .blocked) :=
    mem_alive.mpr ⟨mem_setState.mpr ⟨p, mem_spawn.mpr (Or.inl hp), Or.inl ⟨rfl, rfl⟩⟩, by simp⟩
  -- nobody dies in a fork
  have hsurv : ∀ x ∈ alive T,
      ∃ r ∈ alive ((T.spawn p.pid).setState p.self .blocked), r.pid = x.pid := by
    intro x hx
    obtain ⟨hx, hxz⟩ := mem_alive.mp hx
    by_cases hs : x.self = p.self
    · exact ⟨_, mem_alive.mpr
        ⟨mem_setState.mpr ⟨x, mem_spawn.mpr (Or.inl hx), Or.inl ⟨hs, rfl⟩⟩, by simp⟩, rfl⟩
    · exact ⟨x, mem_alive.mpr
        ⟨mem_setState.mpr ⟨x, mem_spawn.mpr (Or.inl hx), Or.inr ⟨hs, rfl⟩⟩, hxz⟩, rfl⟩
  intro q hq
  obtain ⟨r, hr, hcase⟩ := mem_setState.mp hq
  have hqr : q.ppid = r.ppid := by rcases hcase with ⟨-, rfl⟩ | ⟨-, rfl⟩ <;> rfl
  rw [hqr]
  rcases mem_spawn.mp hr with hr | rfl
  · rcases h r hr with h0 | ⟨x, hx, hxp⟩
    · exact Or.inl h0
    · rw [← hxp]
      exact Or.inr (hsurv x hx)
  · exact Or.inr ⟨_, hpm, rfl⟩

/-- Dead processes can be reaped and killed again. -/
theorem Kept.reap (h : Kept T) (hnd : (T.procs.map fun q => q.self).Nodup) {z : Proc}
    (hz : z ∈ T.procs) (hzz : z.state = .zombie) : Kept (T.reap z.self) := by
  intro q hq
  rw [alive_reap hnd hz hzz]
  exact h q (mem_reap.mp hq).1

theorem Kept.rekill (h : Kept T) (hnd : (T.procs.map fun q => q.self).Nodup) {z : Proc}
    (hz : z ∈ T.procs) (hzz : z.state = .zombie) : Kept (T.setState z.self .zombie) := by
  intro q hq
  rw [alive_rekill hnd hz hzz]
  obtain ⟨r, hr, ⟨-, rfl⟩ | ⟨-, rfl⟩⟩ := mem_setState.mp hq
  · exact h r hr
  · exact h q hr

/-- When nobody is alive, everybody is a child of 0. -/
theorem Kept.ppid_zero (h : Kept T) (hnone : alive T = []) : ∀ q ∈ T.procs, q.ppid = 0 := by
  intro q hq
  rcases h q hq with h0 | ⟨r, hr, -⟩
  · exact h0
  · rw [hnone] at hr
    cases hr

theorem zombie_of_none (hnone : alive T = []) : ∀ q ∈ T.procs, q.state = .zombie := by
  intro q hq
  by_contra hz
  have := mem_alive.mpr ⟨hq, hz⟩
  rw [hnone] at this
  cases this

end Kept

section Effects

variable {T T' : Table} {p : Proc} {e : Event}

/-- A resumed zombie that forks is the root of a new line. -/
theorem lineAt_zombie_fork (hnone : alive T = []) (hkept : Kept T)
    (hnd : (T.procs.map fun q => q.self).Nodup) (hp : p ∈ T.procs) (hold : p.self < T.nextObj)
    (hpid : p.pid < T.nextPid) :
    LineAt ((T.spawn p.pid).setState p.self .blocked) (T.nextObj + 1) := by
  obtain ⟨as, bs, hsplit⟩ := List.append_of_mem hp
  have hz := zombie_of_none hnone
  have hne : T.nextObj + 1 ≠ p.self := by omega
  rw [hsplit] at hnd hz
  have hnd' := hnd
  rw [List.map_append, List.map_cons, List.nodup_append] at hnd'
  obtain ⟨-, hb, hcross⟩ := hnd'
  have hside : ∀ l : List Proc, (∀ q ∈ l, q.self ≠ p.self ∧ q.state = .zombie) →
      (l.map fun q => if q.self = p.self then { q with state := .blocked } else q).filter
        (fun q => decide (q.state ≠ .zombie)) = [] := by
    intro l hl
    refine List.filter_eq_nil_iff.mpr fun q hq => ?_
    obtain ⟨r, hr, rfl⟩ := List.mem_map.mp hq
    simp [(hl r hr).1, (hl r hr).2]
  have has := hside as fun q hq => ⟨hcross q.self (List.mem_map_of_mem hq) p.self (by simp),
    hz q (List.mem_append_left _ hq)⟩
  have hbs := hside bs fun q hq => ⟨fun hs => (List.nodup_cons.mp hb).1
    (hs ▸ List.mem_map_of_mem hq), hz q (by simp [hq])⟩
  refine ⟨[{ p with state := .blocked }], ⟨T.nextObj + 1, T.nextPid, p.pid, .running⟩,
    ⟨?_, by simp, rfl, ?_⟩, rfl⟩
  · simp only [alive, Table.setState, Table.spawn, hsplit]
    simp only [List.map_append, List.map_cons, List.filter_append, has, hbs, List.filter_cons]
    simp [hne]
  · have h0 := hkept.ppid_zero hnone p hp
    have := @Lineage.snoc [] (p.pid, 0) _ (Lineage.single p.pid) hpid
    simpa [kin, h0] using this

/-- Nobody alive: what an effect of the zombie that was resumed leaves. -/
theorem effect_none (he : Effect T p e T') (hnone : alive T = []) (hkept : Kept T)
    (hnd : (T.procs.map fun q => q.self).Nodup) (hp : p ∈ T.procs) (hbelow : Below T)
    (hold : p.self < T.nextObj) (hfork : e = .call .fork → p.pid < T.nextPid) :
    Kept T' ∧ (alive T' = [] ∨ ∃ a, LineAt T' a) := by
  have h0 := hkept.ppid_zero hnone p hp
  have hdead : alive (T.exit p) = [] := by
    have := @alive_exit_pids T p
    rw [hnone] at this
    simpa using this
  cases he with
  | tick => exact ⟨hkept, Or.inl hnone⟩
  | execve => exact ⟨hkept, Or.inl hnone⟩
  | other => exact ⟨hkept, Or.inl hnone⟩
  | wait => exact ⟨hkept, Or.inl hnone⟩
  | reap hq hqp _ =>
      have := hkept.ppid_zero hnone _ hq
      have := hbelow p hp
      omega
  | fork => exact ⟨hkept.fork hp,
      Or.inr ⟨_, lineAt_zombie_fork hnone hkept hnd hp hold (hfork rfl)⟩⟩
  | exit h => exact absurd h0 h
  | exitRoot _ => exact ⟨(hkept.exit hnd hp hbelow).spawn_zero, Or.inr ⟨_, lineAt_shell hdead⟩⟩
  | fault h => exact absurd h0 h
  | faultRoot _ => exact ⟨(hkept.exit hnd hp hbelow).spawn_zero, Or.inr ⟨_, lineAt_shell hdead⟩⟩
  | killNone _ => exact ⟨hkept, Or.inl hnone⟩
  | killSelf _ _ => exact ⟨hkept.exit hnd hp hbelow, Or.inl hdead⟩
  | kill _ hfind _ =>
      have hq := List.mem_of_find?_eq_some hfind
      have hz := zombie_of_none hnone _ hq
      exact ⟨hkept.rekill hnd hq hz, Or.inl (by rw [alive_rekill hnd hq hz, hnone])⟩

/-- A line: links stay kept. -/
theorem effect_kept (he : Effect T p e T') (h : LineAt T p.self) (hkept : Kept T)
    (hnd : (T.procs.map fun q => q.self).Nodup) (hp : p ∈ T.procs) (hbelow : Below T)
    (hkill : ∀ pid sig q, e = .call (.kill pid sig) → sig ≠ 0 →
      (T.procs.find? fun q => q.pid = pid) = some q → q.self ≠ p.self →
      ∀ r ∈ alive T, r.ppid ≠ q.pid) : Kept T' := by
  obtain ⟨l, hl⟩ := h.lineOf hnd hp
  cases he with
  | tick => exact hkept
  | execve => exact hkept
  | other => exact hkept
  | wait => exact hkept
  | reap hq _ hz => exact hkept.reap hnd hq hz
  | fork => exact hkept.fork hp
  | exit _ => exact hkept.exit hnd hp hbelow
  | exitRoot _ => exact (hkept.exit hnd hp hbelow).spawn_zero
  | fault _ => exact hkept.exit hnd hp hbelow
  | faultRoot _ => exact (hkept.exit hnd hp hbelow).spawn_zero
  | killNone _ => exact hkept
  | killSelf _ _ => exact hkept.exit hnd hp hbelow
  | @kill pid sig q hsig hfind hne =>
      have hq := List.mem_of_find?_eq_some hfind
      have hz := hl.zombie_of_childless hq hne (hkill pid sig q rfl hsig hfind hne)
      exact hkept.rekill hnd hq hz

/-- Where nobody is alive, the handler returns to the current process only
after a fork of it. -/
theorem effect_not_resumed {s s' s₀ : Sched} {frame : Frame} (he : Effect s₀.table p e s.table)
    (hnone : alive s₀.table = []) (hp : p ∈ s₀.procs) (hw : WF s)
    (hc : s.current = some p.self) (hr : Resumed s s' frame) : e = .call .fork := by
  have hz : p.state = .zombie := zombie_of_none hnone p hp
  -- otherwise the current process is a zombie still
  suffices H : e ≠ .call .fork → ∃ z ∈ s.procs, z.self = p.self ∧ z.state = .zombie by
    by_contra hne
    obtain ⟨z, hzm, hzs, hzz⟩ := H hne
    obtain ⟨u, hu, rfl⟩ := Sched.mem_procs.mp hzm
    exact hr.alive _ hc u hu hzs hzz
  intro hne
  obtain ⟨u, hu, hus, -⟩ := hw.cur _ hc
  generalize hT : s.table = T' at he
  have hprocs : s.procs = T'.procs := by rw [← hT]; rfl
  rw [hprocs]
  cases he with
  | tick => exact ⟨p, hp, rfl, hz⟩
  | execve => exact ⟨p, hp, rfl, hz⟩
  | other => exact ⟨p, hp, rfl, hz⟩
  | wait => exact ⟨p, hp, rfl, hz⟩
  | @reap _ _ q _ _ _ =>
      have hum : u.toProc ∈ (s₀.table.reap q.self).procs := by
        rw [← hprocs]
        exact List.mem_map_of_mem hu
      exact ⟨u.toProc, hum, hus, zombie_of_none hnone _ (mem_reap.mp hum).1⟩
  | fork => exact absurd rfl hne
  | exit _ => exact exit_zombie hp
  | exitRoot _ =>
      obtain ⟨z, hz, hzs⟩ := exit_zombie (T := s₀.table) hp
      exact ⟨z, mem_spawn.mpr (Or.inl hz), hzs⟩
  | fault _ => exact exit_zombie hp
  | faultRoot _ =>
      obtain ⟨z, hz, hzs⟩ := exit_zombie (T := s₀.table) hp
      exact ⟨z, mem_spawn.mpr (Or.inl hz), hzs⟩
  | killNone _ => exact ⟨p, hp, rfl, hz⟩
  | killSelf _ _ => exact exit_zombie hp
  | kill _ _ hother =>
      exact ⟨p, mem_setState.mpr ⟨p, hp, Or.inr ⟨fun h => hother h.symm, rfl⟩⟩, rfl, hz⟩

end Effects

/-! ## The invariant -/

/-- Links are kept, and the living form a line that ends at the current
process, unless nobody lives. -/
structure OrphanInv (s : Sched) : Prop where
  wf : WF s
  below : Below s.table
  kept : Kept s.table
  line : ∀ c, s.current = some c → LineAt s.table c ∨ alive s.table = []
  boot : s.current = none → (∀ t ∈ s.ring, t.state = .running) ∧ ∃ a, LineAt s.table a

theorem OrphanInv.init {m : Machine} (h : MachineBoot m) : OrphanInv m.sched := by
  have hc := ChainInv.init h
  refine ⟨hc.wf, hc.below, ?_, fun c hcur => Or.inl (hc.line c hcur), hc.boot⟩
  obtain ⟨init, obj, -, hs, -⟩ := h
  rw [hs]
  simp [Kept, Sched.table, Sched.procs, createUserTask, addTask]

theorem OrphanInv.of_dispatched {s s' : Sched} {frame : Frame} (h : Dispatched s s' frame)
    (hb : Below s.table) (hk : Kept s.table)
    (ha : alive s.table = [] ∨ ∃ a, LineAt s.table a) : OrphanInv s' where
  wf := h.wf
  below := by rw [h.table]; exact hb
  kept := by rw [h.table]; exact hk
  line := by
    intro c hc
    rcases ha with hnone | ⟨a, ha⟩
    · exact Or.inr (by rw [h.table]; exact hnone)
    · exact Or.inl (h.line ha c hc)
  boot := fun hc => absurd hc h.current_some

theorem OrphanInv.step {m m' : Machine} {t : Trap} (h : OrphanInv m.sched)
    (hg : PidFresh m t ∧ SparesParents m t) (hs : MachineStep m t m') : OrphanInv m'.sched := by
  cases hc : m.sched.current with
  | none =>
      obtain ⟨hall, ha⟩ := h.boot hc
      obtain ⟨-, hd⟩ := boot_trap h.wf hc hall hs
      exact .of_dispatched hd h.below h.kept (Or.inr ha)
  | some c =>
      have hown : ∀ p ∈ m.sched.procs, p.self = c → p.state = .zombie → p.ppid ≠ p.pid :=
        fun p hp _ _ => Nat.ne_of_lt (h.below p hp)
      obtain ⟨p, hp, rfl, s, hws, hsc, heff, hend⟩ := trap_cases h.wf hc hown hs
      obtain ⟨hfork, hroot⟩ := hg.1 p hp hc
      have hb : Below s.table := h.below.effect heff hp (fun he => (hfork he).1) hroot
      have hnd := procs_nodup h.wf
      have hold := h.wf.self_lt hp
      have hkill : ∀ pid sig q, t.event = .call (.kill pid sig) → sig ≠ 0 →
          (m.sched.table.procs.find? fun q => q.pid = pid) = some q → q.self ≠ p.self →
          ∀ r ∈ alive m.sched.table, r.ppid ≠ q.pid := by
        intro pid sig q he hsig hfind hne r hr
        refine hg.2 pid sig q he hsig hfind ?_ r (mem_alive.mp hr).1 (mem_alive.mp hr).2
        rw [hc]
        exact fun hs' => hne (Option.some.inj hs').symm
      rcases h.line _ hc with hline | hnone
      · have hkept := effect_kept heff hline h.kept hnd hp h.below hkill
        have hline' := effect_line heff hline hnd hp h.below hold (fun he => (hfork he).1) hkill
        rcases hend with ⟨hd, -⟩ | ⟨hr, -, hbad⟩
        · refine .of_dispatched hd hb hkept ?_
          rcases hline' with ha | ⟨-, ha⟩ | ⟨-, ha | ⟨hnone, -⟩⟩
          · exact Or.inr ⟨_, ha⟩
          · exact Or.inr ha
          · exact Or.inr ha
          · exact Or.inl hnone
        · rw [hr.eq]
          refine ⟨hws, hb, hkept, fun c' hc' => ?_, fun hn => ?_⟩
          · rw [hsc] at hc'
            cases hc'
            rcases hline' with ha | ⟨hf, -⟩ | ⟨⟨z, hz, hzs, hzz⟩, -⟩
            · exact Or.inl ha
            · have := hfork hf
              exact absurd (int32_pos.mpr (Or.inl ⟨by omega, this.2⟩)) (hbad hf)
            · obtain ⟨u, hu, rfl⟩ := Sched.mem_procs.mp hz
              exact absurd hzz (hr.alive _ hsc u hu hzs)
          · rw [hsc] at hn
            cases hn
      · obtain ⟨hkept, hafter⟩ := effect_none heff hnone h.kept hnd hp h.below hold
          fun he => (hfork he).1
        rcases hend with ⟨hd, -⟩ | ⟨hr, -, hbad⟩
        · exact .of_dispatched hd hb hkept hafter
        · -- a zombie is never returned to, unless it blocked itself by a fork
          rw [hr.eq]
          refine ⟨hws, hb, hkept, fun c' hc' => ?_, fun hn => ?_⟩
          · rcases hafter with hnone' | ⟨a, ha⟩
            · exact Or.inr hnone'
            · exfalso
              have := effect_not_resumed heff hnone hp hws hsc hr
              have hpos := hfork this
              exact hbad this (int32_pos.mpr (Or.inl ⟨by omega, hpos.2⟩))
          · rw [hsc] at hn
            cases hn

/-- Nobody alive hangs on a dead parent. -/
def NoOrphan (l : List Proc) : Prop :=
  ∀ q ∈ l, q.state ≠ .zombie → q.ppid = 0 ∨ ∃ r ∈ l, r.state ≠ .zombie ∧ r.pid = q.ppid

/-- In every run in which pids stay fresh and no kill is aimed at the parent
of a living task, parent links do not dangle. -/
theorem no_orphan_while_parents_spared {m : Machine}
    (hm : machineSystem.ReachVia (fun m t => PidFresh m t ∧ SparesParents m t) m) :
    NoOrphan m.sched.procs := by
  have h : OrphanInv m.sched :=
    System.ReachVia.invariant (I := fun m => OrphanInv m.sched) (fun _ h => .init h)
      (fun _ _ _ h hg hs => h.step hg hs) hm
  intro q hq _
  rcases h.kept q hq with h0 | ⟨r, hr, hrp⟩
  · exact Or.inl h0
  · exact Or.inr ⟨r, (mem_alive.mp hr).1, (mem_alive.mp hr).2, hrp⟩

/-- The shell, its child and its grandchild, which is current. -/
def threeDeep (state : TaskState) (exitCode : Int) : Sched :=
  ⟨[shellTask .blocked 0 2, ⟨⟨4, 2, 1, state⟩, ⟨3, 0, 3⟩, 3, true, exitCode⟩,
    ⟨⟨6, 3, 2, .running⟩, ⟨5, 0, 0⟩, 5, true, 0⟩], some 6, 4, 5, 0, 7⟩

theorem threeDeep_steps :
    MachineStep ⟨aloneAt 2 3 0 0, ⟨1, 0, 0⟩⟩ ⟨.call .fork, 0, 5⟩
      ⟨⟨[shellTask .blocked 0 2, childTask 2 3 .running 0], some 4, 3, 3, 0, 5⟩, ⟨3, 0, 0⟩⟩ ∧
    MachineStep
      ⟨⟨[shellTask .blocked 0 2, childTask 2 3 .running 0], some 4, 3, 3, 0, 5⟩, ⟨3, 0, 0⟩⟩
      ⟨.call .fork, 0, 5⟩ ⟨threeDeep .blocked 0, ⟨5, 0, 0⟩⟩ ∧
    MachineStep ⟨threeDeep .blocked 0, ⟨5, 0, 0⟩⟩ ⟨.call (.kill 2 9), 0, 15⟩
      ⟨threeDeep .zombie 137, ⟨5, 0, 0⟩⟩ :=
  ⟨⟨Or.inr (by decide), by decide⟩, ⟨Or.inr (by decide), by decide⟩,
    ⟨Or.inr (by decide), by decide⟩⟩

/-- A grandchild kills its parent and hangs on a zombie. -/
theorem kill_of_parent_orphans :
    ¬∀ m, machineSystem.Reach m → NoOrphan m.sched.procs := by
  intro hall
  obtain ⟨h₁, h₂, h₃⟩ := threeDeep_steps
  have hreach : machineSystem.Reach ⟨threeDeep .zombie 137, ⟨5, 0, 0⟩⟩ :=
    .step (.step (.step (.step (.init bootMachine_boot) trivial bootMachine_tick) trivial h₁)
      trivial h₂) trivial h₃
  rcases hall _ hreach ⟨6, 3, 2, .running⟩ (by decide) (by decide) with h0 | ⟨r, hr, hrz, hrp⟩
  · cases h0
  · simp only [threeDeep, Sched.procs, shellTask, List.map_cons, List.map_nil, List.mem_cons,
      List.not_mem_nil, or_false] at hr
    rcases hr with rfl | rfl | rfl
    · cases hrp
    · exact hrz rfl
    · cases hrp

/-- The first fork leaves no orphan. -/
theorem no_orphan_after_first_fork :
    machineSystem.ReachVia (fun m t => PidFresh m t ∧ SparesParents m t)
        ⟨⟨[shellTask .blocked 0 2, childTask 2 3 .running 0], some 4, 3, 3, 0, 5⟩, ⟨3, 0, 0⟩⟩ ∧
      NoOrphan [(shellTask .blocked 0 2).toProc, (childTask 2 3 .running 0).toProc] := by
  have hreach : machineSystem.ReachVia (fun m t => PidFresh m t ∧ SparesParents m t)
      ⟨⟨[shellTask .blocked 0 2, childTask 2 3 .running 0], some 4, 3, 3, 0, 5⟩, ⟨3, 0, 0⟩⟩ := by
    refine .step (.step (.init bootMachine_boot) ⟨?_, ?_⟩ bootMachine_tick) ⟨?_, ?_⟩
      threeDeep_steps.1
    · intro p _ hp
      simp [bootMachine, createUserTask, addTask] at hp
    · intro pid sig q he
      simp at he
    · intro p hp _
      simp [Sched.procs, aloneAt, shellTask] at hp
      simp [hp, aloneAt]
    · intro pid sig q he
      simp at he
  exact ⟨hreach, no_orphan_while_parents_spared hreach⟩

end LiteBSD
