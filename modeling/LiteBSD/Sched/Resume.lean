/-
# `LiteBSD.Sched.Resume` — which frames are handed back

Every handler ends in `iret` from some frame.  Here is EXACTLY when all the
frames of a run belong to RUNNING tasks: at each death the dead task has a
BLOCKED parent on the ring, or it is the root and dies in `exit` or by a
fault, where a new shell is made.  A root that kills itself has neither:
`sys_kill` runs `task_exit` and makes no shell, `schedule` finds nothing
RUNNING, and the zombie it started from is resumed.  A fork whose pid is not
positive as an `int` returns to the BLOCKED parent.
-/
import LiteBSD.Sched.Runner

namespace LiteBSD

open Lib

/-- The frame handed back lies on the stack of a RUNNING task. -/
def HandsBackRunning (m : Machine) : Prop :=
  ∃ t ∈ m.sched.ring, m.regs.stack = t.stackBase ∧ t.state = .running

/-- After the event `e` of the current process `p` somebody can run. -/
def Leaves (T : Table) (p : Proc) : Event → Prop
  | .call .fork => int32 T.nextPid > 0
  | .call (.exit _) => p.ppid = 0 ∨ ∃ q ∈ T.procs, q.pid = p.ppid ∧ q.state = .blocked
  | .fault => p.ppid = 0 ∨ ∃ q ∈ T.procs, q.pid = p.ppid ∧ q.state = .blocked
  | .call (.kill pid sig) =>
      sig ≠ 0 → (T.procs.find? fun q => q.pid = pid) = some p →
        p.ppid ≠ 0 ∧ ∃ q ∈ T.procs, q.pid = p.ppid ∧ q.state = .blocked
  | _ => True

/-- The condition on a trap: the current process leaves somebody to run. -/
def LeavesRunner (m : Machine) (t : Trap) : Prop :=
  ∀ p ∈ m.sched.procs, m.sched.current = some p.self → Leaves m.sched.table p t.event

section Death

variable {T : Table} {p : Proc}

/-- The processes other than the dead one that were BLOCKED on it are the
only ones a death can set RUNNING. -/
theorem exit_running_iff (hnd : (T.procs.map fun q => q.self).Nodup) (hp : p ∈ T.procs)
    (hr : p.state = .running) (hrun : RunnerAt T p.self) :
    (∃ q ∈ (T.exit p).procs, q.state = .running) ↔
      p.ppid ≠ 0 ∧ ∃ q ∈ T.procs, q.pid = p.ppid ∧ q.state = .blocked := by
  have hdead := not_running_of_dead hrun
  constructor
  · rintro ⟨q, hq, hqr⟩
    by_cases h0 : p.ppid = 0
    · exact absurd hqr (not_running_of_root hrun h0 q hq)
    refine ⟨h0, ?_⟩
    simp only [Table.exit, if_neg h0] at hq
    obtain ⟨r, hmem, hcase⟩ := mem_reparent.mp hq
    have hrr : r.state = .running := by
      rcases hcase with ⟨-, rfl⟩ | ⟨-, rfl⟩ <;> exact hqr
    rcases mem_wake hmem with hmem | ⟨b, hb, hbp, hbb, rfl⟩
    · exact absurd hrr (hdead r hmem)
    · obtain ⟨b', hb', ⟨-, rfl⟩ | ⟨-, rfl⟩⟩ := mem_setState.mp hb
      · simp at hbb
      · exact ⟨b, hb', hbp, hbb⟩
  · rintro ⟨h0, q, hq, hqp, hqb⟩
    have hne : q.self ≠ p.self := by
      intro he
      have : q = p := List.inj_on_of_nodup_map hnd hq hp he
      rw [this, hr] at hqb
      cases hqb
    have hq' : q ∈ (T.setState p.self .zombie).procs := mem_setState.mpr ⟨q, hq, Or.inr ⟨hne, rfl⟩⟩
    -- the first match of the loop exists
    have hw : ∃ r ∈ ((T.setState p.self .zombie).wake p.ppid).procs, r.state = .running := by
      have := @updateFirst_exists _ (fun q : Proc => decide (q.pid = p.ppid ∧ q.state = .blocked))
        (fun q => { q with state := .running }) _ q hq' (by simp [hqp, hqb])
      obtain ⟨b, hb⟩ := this
      exact ⟨_, hb, rfl⟩
    obtain ⟨r, hr', hrr⟩ := hw
    simp only [Table.exit, if_neg h0]
    by_cases hrp : r.ppid = p.pid
    · exact ⟨_, mem_reparent.mpr ⟨r, hr', Or.inl ⟨hrp, rfl⟩⟩, hrr⟩
    · exact ⟨r, mem_reparent.mpr ⟨r, hr', Or.inr ⟨hrp, rfl⟩⟩, hrr⟩

/-- An effect on a RUNNING process, seen from who can run after it. -/
theorem effect_leaves {T' : Table} {e : Event} (he : Effect T p e T')
    (hnd : (T.procs.map fun q => q.self).Nodup) (hp : p ∈ T.procs) (hr : p.state = .running)
    (hrun : RunnerAt T p.self) (hold : p.self < T.nextObj) :
    (p ∈ T'.procs ∧ e ≠ .call .fork ∧ Leaves T p e) ∨
    (e = .call .fork ∧ (∃ q ∈ T'.procs, q.state = .running) ∧
      ∀ q ∈ T'.procs, q.self = p.self → q.state ≠ .running) ∨
    ((∃ z ∈ T'.procs, z.self = p.self ∧ z.state = .zombie) ∧ e ≠ .call .fork ∧
      ((∃ q ∈ T'.procs, q.state = .running) ↔ Leaves T p e)) := by
  have hiff := exit_running_iff hnd hp hr hrun
  have hroot : p.ppid = 0 → (∃ z ∈ ((T.exit p).spawn 0).procs, z.self = p.self ∧
      z.state = .zombie) ∧ ∃ q ∈ ((T.exit p).spawn 0).procs, q.state = .running := by
    intro h0
    obtain ⟨z, hz, hzs⟩ := exit_zombie hp
    exact ⟨⟨z, mem_spawn.mpr (Or.inl hz), hzs⟩, _, mem_spawn.mpr (Or.inr rfl), rfl⟩
  cases he with
  | tick => exact Or.inl ⟨hp, by simp, trivial⟩
  | execve => exact Or.inl ⟨hp, by simp, trivial⟩
  | other => exact Or.inl ⟨hp, by simp, trivial⟩
  | wait => exact Or.inl ⟨hp, by simp, trivial⟩
  | reap hq _ hz =>
      refine Or.inl ⟨mem_reap.mpr ⟨hp, fun hs => ?_⟩, by simp, trivial⟩
      rw [← List.inj_on_of_nodup_map hnd hp hq hs, hr] at hz
      cases hz
  | fork =>
      refine Or.inr (Or.inl ⟨rfl, ?_, ?_⟩)
      · have hs : T.nextObj + 1 ≠ p.self := by omega
        exact ⟨_, mem_setState.mpr ⟨_, mem_spawn.mpr (Or.inr rfl), Or.inr ⟨hs, rfl⟩⟩, rfl⟩
      · intro q hq hs
        obtain ⟨r, hmem, ⟨-, rfl⟩ | ⟨hne, rfl⟩⟩ := mem_setState.mp hq
        · simp
        · exact absurd hs hne
  | exit h0 =>
      refine Or.inr (Or.inr ⟨exit_zombie hp, by simp, ?_⟩)
      simp only [Leaves, h0, false_or]
      rw [hiff]
      simp [h0]
  | exitRoot h0 =>
      obtain ⟨hz, hq⟩ := hroot h0
      exact Or.inr (Or.inr ⟨hz, by simp, ⟨fun _ => Or.inl h0, fun _ => hq⟩⟩)
  | fault h0 =>
      refine Or.inr (Or.inr ⟨exit_zombie hp, by simp, ?_⟩)
      simp only [Leaves, h0, false_or]
      rw [hiff]
      simp [h0]
  | faultRoot h0 =>
      obtain ⟨hz, hq⟩ := hroot h0
      exact Or.inr (Or.inr ⟨hz, by simp, ⟨fun _ => Or.inl h0, fun _ => hq⟩⟩)
  | killNone h =>
      refine Or.inl ⟨hp, by simp, ?_⟩
      intro hsig hfind
      rcases h with h | h
      · exact absurd h hsig
      · rw [h] at hfind
        cases hfind
  | killSelf hsig hfind =>
      refine Or.inr (Or.inr ⟨exit_zombie hp, by simp, hiff.trans ?_⟩)
      exact ⟨fun h _ _ => h, fun h => h hsig hfind⟩
  | kill hsig hfind hne =>
      refine Or.inl ⟨mem_setState.mpr ⟨p, hp, Or.inr ⟨fun h => hne h.symm, rfl⟩⟩, by simp, ?_⟩
      intro _ hfind'
      rw [hfind] at hfind'
      cases hfind'
      exact absurd rfl hne

end Death

/-! ## The invariant -/

/-- The current task is RUNNING and nothing else is. -/
structure ResumeInv (s : Sched) : Prop where
  wf : WF s
  runner : ∀ c, s.current = some c → RunnerAt s.table c ∧
    ∃ t ∈ s.ring, t.self = c ∧ t.state = .running
  boot : s.current = none → (∀ t ∈ s.ring, t.state = .running) ∧ ∃ a, RunnerAt s.table a

theorem procs_nodup {s : Sched} (h : WF s) : (s.table.procs.map fun q => q.self).Nodup := by
  simpa [Sched.table, Sched.procs, List.map_map, Function.comp_def] using h.selfs

theorem ResumeInv.init {m : Machine} (h : MachineBoot m) : ResumeInv m.sched := by
  have hr := RunnerInv.init h
  refine ⟨hr.wf, fun c hc => ?_, hr.boot⟩
  obtain ⟨init, obj, -, hs, -⟩ := h
  rw [hs] at hc
  simp [createUserTask, addTask] at hc

/-- A dispatched machine hands back a RUNNING frame exactly if anything is
RUNNING. -/
theorem handsBack_dispatched {s : Sched} {m : Machine} (h : Dispatched s m.sched m.regs) :
    HandsBackRunning m ↔ ∃ q ∈ s.table.procs, q.state = .running := by
  obtain ⟨n, hn, -, hstack, hrun⟩ := h.picked
  have hprocs : s.table.procs = m.sched.procs := h.procs.symm
  constructor
  · rintro ⟨t, ht, -, htr⟩
    exact ⟨t.toProc, hprocs ▸ List.mem_map_of_mem ht, htr⟩
  · rintro ⟨q, hq, hqr⟩
    rw [hprocs] at hq
    obtain ⟨t, ht, rfl⟩ := Sched.mem_procs.mp hq
    exact ⟨n, hn, hstack, hrun ⟨t, ht, hqr⟩⟩

/-- The resumed frame is that of the current task. -/
theorem handsBack_resumed {s : Sched} {m : Machine} (hw : WF s) {c : Nat}
    (hc : s.current = some c) (h : Resumed s m.sched m.regs) :
    HandsBackRunning m ↔ ∃ q ∈ s.table.procs, q.self = c ∧ q.state = .running := by
  obtain ⟨cur, hcur, -, hself, htss⟩ := hw.current_found hc
  rw [HandsBackRunning, h.eq]
  constructor
  · rintro ⟨t, ht, hst, htr⟩
    have hb : t.stackBase = cur.stackBase := by rw [← hst, h.stack, htss]
    have : t = cur := List.inj_on_of_nodup_map hw.bases ht hcur hb
    exact ⟨t.toProc, List.mem_map_of_mem ht, by rw [this]; exact hself, htr⟩
  · rintro ⟨q, hq, hqs, hqr⟩
    obtain ⟨t, ht, rfl⟩ := Sched.mem_procs.mp hq
    have : t = cur := List.inj_on_of_nodup_map hw.selfs ht hcur (hqs.trans hself.symm)
    exact ⟨t, ht, by rw [h.stack, htss, this], hqr⟩

theorem ResumeInv.of_dispatched {s : Sched} {m : Machine} {a : Nat}
    (hd : Dispatched s m.sched m.regs) (ha : RunnerAt s.table a) (hb : HandsBackRunning m) :
    ResumeInv m.sched := by
  obtain ⟨u, hu, -, hur⟩ := hb
  refine ⟨hd.wf, fun c hc => ⟨hd.runner ha c hc, ?_⟩, fun hn => absurd hn hd.current_some⟩
  obtain ⟨n, hn, hcur, -, hrun⟩ := hd.picked
  rw [hcur] at hc
  exact ⟨n, hn, Option.some.inj hc, hrun ⟨u, hu, hur⟩⟩

/-- The first tick starts the shell. -/
theorem ResumeInv.boot_trap {m m' : Machine} {t : Trap} (h : ResumeInv m.sched)
    (hc : m.sched.current = none) (hs : MachineStep m t m') :
    HandsBackRunning m' ∧ ResumeInv m'.sched := by
  obtain ⟨hall, a, ha⟩ := h.boot hc
  obtain ⟨-, hd⟩ := LiteBSD.boot_trap h.wf hc hall hs
  have hback : HandsBackRunning m' := by
    refine (handsBack_dispatched hd).mpr ?_
    obtain ⟨first, rest, hring⟩ := List.exists_cons_of_ne_nil h.wf.nonempty
    have hmem : first ∈ m.sched.ring := by simp [hring]
    exact ⟨first.toProc, List.mem_map_of_mem hmem, hall first hmem⟩
  exact ⟨hback, .of_dispatched hd ha hback⟩

/-- The current process, RUNNING and alone so. -/
theorem ResumeInv.current {s : Sched} (h : ResumeInv s) {p : Proc} (hp : p ∈ s.procs)
    (hc : s.current = some p.self) : p.state = .running ∧ p.self < s.nextObj := by
  obtain ⟨u, hu, rfl⟩ := Sched.mem_procs.mp hp
  obtain ⟨-, cur, hcur, hcs, hcr⟩ := h.runner _ hc
  have : u = cur := List.inj_on_of_nodup_map h.wf.selfs hu hcur hcs.symm
  exact ⟨by rw [this, hcr], (h.wf.old u hu).1⟩

/-- Under the invariant a trap hands back a RUNNING frame exactly if it
leaves somebody to run, and then it keeps the invariant. -/
theorem ResumeInv.trap {m m' : Machine} {t : Trap} (h : ResumeInv m.sched)
    (hs : MachineStep m t m') :
    (HandsBackRunning m' ↔ LeavesRunner m t) ∧ (HandsBackRunning m' → ResumeInv m'.sched) := by
  cases hc : m.sched.current with
  | none =>
      obtain ⟨hback, hinv⟩ := h.boot_trap hc hs
      refine ⟨⟨fun _ p _ hp => ?_, fun _ => hback⟩, fun _ => hinv⟩
      rw [hc] at hp
      cases hp
  | some c =>
      -- the current process is RUNNING, so it cannot reap itself
      have hown : ∀ p ∈ m.sched.procs, p.self = c → p.state = .zombie → p.ppid ≠ p.pid := by
        rintro p hp rfl hz
        rw [(h.current hp hc).1] at hz
        cases hz
      obtain ⟨p, hp, rfl, s, hws, hsc, heff, hend⟩ := trap_cases h.wf hc hown hs
      obtain ⟨hpr, hold⟩ := h.current hp hc
      have hrunner := (h.runner _ hc).1
      have hguard : LeavesRunner m t ↔ Leaves m.sched.table p t.event := by
        refine ⟨fun hg => hg p hp hc, fun hl q hq hqc => ?_⟩
        rw [hc] at hqc
        have : p = q := List.inj_on_of_nodup_map (procs_nodup h.wf) hp hq (Option.some.inj hqc)
        rwa [← this]
      rw [hguard]
      obtain ⟨a, ha⟩ := effect_oneRunner heff hp hrunner
      rcases effect_leaves heff (procs_nodup h.wf) hp hpr hrunner hold with
        ⟨hstay, -, hl⟩ | ⟨hf, hchild, hpar⟩ | ⟨⟨z, hz, hzs, hzz⟩, -, hl⟩
      · -- the current process goes on
        rcases hend with ⟨hd, -⟩ | ⟨hr, -, -⟩
        · have hb := (handsBack_dispatched hd).mpr ⟨p, hstay, hpr⟩
          exact ⟨⟨fun _ => hl, fun _ => hb⟩, .of_dispatched hd ha⟩
        · have hb := (handsBack_resumed hws hsc hr).mpr ⟨p, hstay, rfl, hpr⟩
          refine ⟨⟨fun _ => hl, fun _ => hb⟩, fun _ => ?_⟩
          rw [hr.eq]
          have hap : a = p.self := (ha p hstay hpr).symm
          obtain ⟨u, hu, hup⟩ := Sched.mem_procs.mp hstay
          refine ⟨hws, fun c hc' => ?_, fun hn => ?_⟩
          · rw [hsc] at hc'
            cases hc'
            exact ⟨hap ▸ ha, u, hu, by rw [hup], by rw [hup]; exact hpr⟩
          · rw [hsc] at hn
            cases hn
      · -- a fork
        rw [hf]
        rcases hend with ⟨hd, hpos⟩ | ⟨hr, -, hpos⟩
        · have hb := (handsBack_dispatched hd).mpr hchild
          exact ⟨⟨fun _ => hpos hf, fun _ => hb⟩, .of_dispatched hd ha⟩
        · have hnb : ¬HandsBackRunning m' := by
            rw [handsBack_resumed hws hsc hr]
            rintro ⟨q, hq, hqs, hqr⟩
            exact hpar q hq hqs hqr
          exact ⟨⟨fun hb => absurd hb hnb, fun hl => absurd hl (hpos hf)⟩,
            fun hb => absurd hb hnb⟩
      · -- a death: the zombie is never resumed, so `schedule` ran
        rcases hend with ⟨hd, -⟩ | ⟨hr, -, -⟩
        · exact ⟨(handsBack_dispatched hd).trans hl, .of_dispatched hd ha⟩
        · obtain ⟨u, hu, rfl⟩ := Sched.mem_procs.mp hz
          exact absurd hzz (hr.alive _ hsc u hu hzs)

/-- A run hands back only frames of RUNNING tasks exactly if every trap of
it leaves somebody to run. -/
theorem hands_back_running_iff {tr : List (Machine × Trap × Machine)} {m : Machine}
    (h : machineSystem.Trace tr m) :
    (∀ x ∈ tr, HandsBackRunning x.2.2) ↔ ∀ x ∈ tr, LeavesRunner x.1 x.2.1 :=
  System.Trace.good_iff_guarded (I := fun m => ResumeInv m.sched)
    (P := fun _ _ m' => HandsBackRunning m') (G := LeavesRunner)
    (fun _ hb => .init hb)
    (fun _ _ _ hI hg hs => (hI.trap hs).2 ((hI.trap hs).1.mpr hg))
    (fun _ _ _ hI hs => (hI.trap hs).1) h

/-- The shell kills itself and is resumed as a zombie. -/
theorem zombie_resumed :
    ¬∀ tr m, machineSystem.Trace tr m → ∀ x ∈ tr, HandsBackRunning x.2.2 := by
  intro hall
  have hkill : MachineStep ⟨aloneAt 2 3 0 0, ⟨1, 0, 0⟩⟩ ⟨.call (.kill 1 9), 0, 15⟩
      ⟨⟨[⟨⟨2, 1, 0, .zombie⟩, ⟨1, 0, 15⟩, 1, true, 137⟩], some 2, 2, 1, 0, 3⟩, ⟨1, 0, 15⟩⟩ :=
    ⟨Or.inr (by decide), by decide⟩
  have htick : machineSystem.Trace _ ⟨aloneAt 2 3 0 0, ⟨1, 0, 0⟩⟩ :=
    .snoc (.nil bootMachine_boot) bootMachine_tick
  have htrace : machineSystem.Trace _ _ := .snoc htick hkill
  obtain ⟨t, ht, -, hr⟩ := hall _ _ htrace _ List.mem_cons_self
  simp at ht
  simp [ht] at hr

/-- A tick, a fork and the exit of the child hand back the shell, the child
and the shell. -/
theorem first_child_hands_back :
    machineSystem.Trace [(firstFork, ⟨.call (.exit 0), 0, 3⟩, firstExit),
        (⟨aloneAt 2 3 0 0, ⟨1, 0, 0⟩⟩, ⟨.call .fork, 0, 5⟩, firstFork),
        (bootMachine, ⟨.tick, 0, 0⟩, ⟨aloneAt 2 3 0 0, ⟨1, 0, 0⟩⟩)] firstExit ∧
      HandsBackRunning firstExit ∧ HandsBackRunning firstFork := by
  have htrace : machineSystem.Trace _ firstExit :=
    .snoc (.snoc (.snoc (.nil bootMachine_boot) bootMachine_tick) firstFork_step) firstExit_step
  have hleaves : ∀ x ∈ [(firstFork, ⟨.call (.exit 0), 0, 3⟩, firstExit),
      (⟨aloneAt 2 3 0 0, ⟨1, 0, 0⟩⟩, ⟨.call .fork, 0, 5⟩, firstFork),
      (bootMachine, ⟨.tick, 0, 0⟩, ⟨aloneAt 2 3 0 0, ⟨1, 0, 0⟩⟩)],
      LeavesRunner x.1 x.2.1 := by
    intro x hx
    simp only [List.mem_cons, List.not_mem_nil, or_false] at hx
    rcases hx with rfl | rfl | rfl
    · -- the shell is BLOCKED on the child that dies
      intro p hp hc
      have hchild : p = (childTask 2 3 .running 0).toProc := by
        simp [Sched.procs, firstFork, shellTask, childTask] at hp hc
        rcases hp with rfl | rfl
        · simp at hc
        · rfl
      rw [hchild]
      exact .inr ⟨(shellTask .blocked 0 2).toProc, List.mem_cons_self, rfl, rfl⟩
    · intro p _ _
      simp [Leaves, Sched.table, aloneAt, int32]
    · intro p _ _
      trivial
  have hback := (hands_back_running_iff htrace).mpr hleaves
  exact ⟨htrace, hback _ List.mem_cons_self, hback _ (List.mem_cons_of_mem _ List.mem_cons_self)⟩

end LiteBSD
