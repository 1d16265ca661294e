/-
# `LiteBSD.Sched.Runner` — at most one runner on the shared image

User programs share one image, so no two tasks may be RUNNING at once, and
the RUNNING one must be the one returned to.  Nothing in the source checks
this.  It holds because every effect leaves the RUNNING processes at one
address: a fork blocks the parent, a death wakes at most one parent or makes
one shell, and both go through `schedule`.

It fails where a pid no longer fits an `int`: `syscall_handler` asks
`ret > 0` before it leaves the blocked parent of a fork, and
`next_pid` is an `unsigned int` that is handed out from 1 to 2³² − 1 and
round again.  `PidFresh` is the condition that the counter has not come so
far.
-/
import LiteBSD.Sched.Steps

namespace LiteBSD

open Lib

/-! ## Members of a table after an operation -/

section Members

variable {T : Table} {q : Proc}

theorem mem_setState {self : Nat} {state : TaskState} :
    q ∈ (T.setState self state).procs ↔
      ∃ r ∈ T.procs, (r.self = self ∧ q = { r with state := state }) ∨ (r.self ≠ self ∧ q = r) := by
  simp only [Table.setState, List.mem_map]
  refine exists_congr fun r => and_congr_right fun _ => ?_
  by_cases h : r.self = self <;> simp [h, eq_comm]

theorem mem_spawn {ppid : Nat} :
    q ∈ (T.spawn ppid).procs ↔
      q ∈ T.procs ∨ q = ⟨T.nextObj + 1, T.nextPid, ppid, .running⟩ := by
  simp [Table.spawn]

theorem mem_reap {self : Nat} : q ∈ (T.reap self).procs ↔ q ∈ T.procs ∧ q.self ≠ self := by
  simp [Table.reap]

theorem mem_reparent {pid ppid : Nat} :
    q ∈ (T.reparent pid ppid).procs ↔
      ∃ r ∈ T.procs, (r.ppid = pid ∧ q = { r with ppid := ppid }) ∨ (r.ppid ≠ pid ∧ q = r) := by
  simp only [Table.reparent, List.mem_map]
  refine exists_congr fun r => and_congr_right fun _ => ?_
  by_cases h : r.ppid = pid <;> simp [h, eq_comm]

theorem mem_updateFirst {α : Type} {test : α → Bool} {f : α → α} {l : List α} {b : α}
    (h : b ∈ updateFirst test f l) : b ∈ l ∨ ∃ a ∈ l, test a ∧ b = f a := by
  induction l with
  | nil => simp [updateFirst] at h
  | cons a l ih =>
      simp only [updateFirst] at h
      split at h
      · rename_i ht
        rcases List.mem_cons.mp h with rfl | h
        · exact Or.inr ⟨a, List.mem_cons_self, ht, rfl⟩
        · exact Or.inl (List.mem_cons_of_mem _ h)
      · rcases List.mem_cons.mp h with rfl | h
        · exact Or.inl List.mem_cons_self
        · rcases ih h with h | ⟨c, hc, ht, rfl⟩
          · exact Or.inl (List.mem_cons_of_mem _ h)
          · exact Or.inr ⟨c, List.mem_cons_of_mem _ hc, ht, rfl⟩

theorem mem_updateFirst_of_not {α : Type} {test : α → Bool} {f : α → α} {l : List α} {a : α}
    (h : a ∈ l) (ht : ¬test a) : a ∈ updateFirst test f l := by
  induction l with
  | nil => cases h
  | cons b l ih =>
      simp only [updateFirst]
      rcases List.mem_cons.mp h with rfl | h
      · simp [ht]
      · split
        · exact List.mem_cons_of_mem _ h
        · exact List.mem_cons_of_mem _ (ih h)

/-- When there is a match, one of the elements was changed. -/
theorem updateFirst_exists {α : Type} {test : α → Bool} {f : α → α} {l : List α} {a : α}
    (h : a ∈ l) (ht : test a) : ∃ b, f b ∈ updateFirst test f l := by
  induction l with
  | nil => cases h
  | cons b l ih =>
      by_cases hb : test b = true
      · exact ⟨b, by simp [updateFirst, hb]⟩
      · rcases List.mem_cons.mp h with rfl | h
        · exact absurd ht hb
        · obtain ⟨c, hc⟩ := ih h
          exact ⟨c, by simp [updateFirst, hb, hc]⟩

/-- A woken process was BLOCKED. -/
theorem mem_wake {pid : Nat} (h : q ∈ (T.wake pid).procs) :
    q ∈ T.procs ∨ ∃ r ∈ T.procs, r.pid = pid ∧ r.state = .blocked ∧
      q = { r with state := .running } := by
  rcases mem_updateFirst h with h | ⟨r, hr, ht, rfl⟩
  · exact Or.inl h
  · simp only [decide_eq_true_eq] at ht
    exact Or.inr ⟨r, hr, ht.1, ht.2, rfl⟩

/-- A death changes the states and the parents of processes, nothing else,
and a parent only from the dead process to its parent. -/
theorem mem_exit {p : Proc} (h : q ∈ (T.exit p).procs) :
    ∃ r ∈ T.procs, r.self = q.self ∧ r.pid = q.pid ∧
      (r.ppid ≠ p.pid ∧ q.ppid = r.ppid ∨ r.ppid = p.pid ∧ q.ppid = p.ppid) := by
  simp only [Table.exit] at h
  obtain ⟨r, hr, hq⟩ := mem_reparent.mp h
  have hback : ∃ r' ∈ T.procs, r'.self = r.self ∧ r'.pid = r.pid ∧ r'.ppid = r.ppid := by
    have hset : ∀ r ∈ (T.setState p.self .zombie).procs,
        ∃ r' ∈ T.procs, r'.self = r.self ∧ r'.pid = r.pid ∧ r'.ppid = r.ppid := by
      intro r hr
      obtain ⟨r', hr', ⟨-, rfl⟩ | ⟨-, rfl⟩⟩ := mem_setState.mp hr
      · exact ⟨r', hr', rfl, rfl, rfl⟩
      · exact ⟨r, hr', rfl, rfl, rfl⟩
    split at hr
    · exact hset r hr
    · rcases mem_wake hr with hr | ⟨r₀, hr₀, -, -, rfl⟩
      · exact hset r hr
      · exact hset r₀ hr₀
  obtain ⟨r', hr', hs, hp, hpp⟩ := hback
  rcases hq with ⟨he, rfl⟩ | ⟨hne, rfl⟩
  · exact ⟨r', hr', hs, hp, Or.inr ⟨hpp.trans he, rfl⟩⟩
  · exact ⟨r', hr', hs, hp, Or.inl ⟨fun h => hne (hpp.symm.trans h), hpp.symm⟩⟩

/-- The dead process is a zombie. -/
theorem exit_zombie {p : Proc} (h : p ∈ T.procs) :
    ∃ z ∈ (T.exit p).procs, z.self = p.self ∧ z.state = .zombie := by
  have hz : { p with state := .zombie } ∈ (T.setState p.self .zombie).procs :=
    mem_setState.mpr ⟨p, h, Or.inl ⟨rfl, rfl⟩⟩
  have hw : { p with state := .zombie } ∈ (if p.ppid = 0 then T.setState p.self .zombie
      else (T.setState p.self .zombie).wake p.ppid).procs := by
    split
    · exact hz
    · exact mem_updateFirst_of_not hz (by simp)
  simp only [Table.exit]
  by_cases hpp : p.ppid = p.pid
  · exact ⟨_, mem_reparent.mpr ⟨_, hw, Or.inl ⟨hpp, rfl⟩⟩, rfl, rfl⟩
  · exact ⟨_, mem_reparent.mpr ⟨_, hw, Or.inr ⟨hpp, rfl⟩⟩, rfl, rfl⟩

end Members

/-! ## One runner -/

/-- Every RUNNING process of the table is the one at address `a`. -/
def RunnerAt (T : Table) (a : Nat) : Prop :=
  ∀ q ∈ T.procs, q.state = .running → q.self = a

theorem RunnerAt.of_reparent {T : Table} {a pid ppid : Nat} (h : RunnerAt T a) :
    RunnerAt (T.reparent pid ppid) a := by
  intro q hq hr
  obtain ⟨r, hmem, ⟨-, rfl⟩ | ⟨-, rfl⟩⟩ := mem_reparent.mp hq
  · exact h r hmem hr
  · exact h q hmem hr

/-- With nothing RUNNING, waking makes at most one runner. -/
theorem runnerAt_wake {T : Table} (h : ∀ q ∈ T.procs, q.state ≠ .running) (pid : Nat) :
    ∃ a, RunnerAt (T.wake pid) a := by
  obtain ⟨l, n, o⟩ := T
  simp only at h
  suffices H : ∃ a, ∀ q ∈ updateFirst (fun q : Proc => decide (q.pid = pid ∧ q.state = .blocked))
      (fun q => { q with state := .running }) l, q.state = .running → q.self = a from H
  induction l with
  | nil => exact ⟨0, by simp [updateFirst]⟩
  | cons p l ih =>
      simp only [updateFirst]
      split
      · refine ⟨p.self, ?_⟩
        intro q hq hr
        rcases List.mem_cons.mp hq with rfl | hq
        · rfl
        · exact absurd hr (h q (List.mem_cons_of_mem _ hq))
      · obtain ⟨a, ha⟩ := ih fun q hq => h q (List.mem_cons_of_mem _ hq)
        refine ⟨a, ?_⟩
        intro q hq hr
        rcases List.mem_cons.mp hq with rfl | hq
        · exact absurd hr (h q List.mem_cons_self)
        · exact ha q hq hr

section Effects

variable {T T' : Table} {p : Proc}

/-- After the runner died, nothing is RUNNING until somebody is woken. -/
theorem not_running_of_dead (h : RunnerAt T p.self) :
    ∀ q ∈ (T.setState p.self .zombie).procs, q.state ≠ .running := by
  intro q hq hr
  obtain ⟨r, hmem, ⟨-, rfl⟩ | ⟨hne, rfl⟩⟩ := mem_setState.mp hq
  · simp at hr
  · exact hne (h q hmem hr)

theorem runnerAt_exit (h : RunnerAt T p.self) : ∃ a, RunnerAt (T.exit p) a := by
  have hnone := not_running_of_dead h
  simp only [Table.exit]
  split
  · exact ⟨0, RunnerAt.of_reparent fun q hq hr => absurd hr (hnone q hq)⟩
  · obtain ⟨a, ha⟩ := runnerAt_wake hnone p.ppid
    exact ⟨a, ha.of_reparent⟩

/-- The root dies without waking anybody. -/
theorem not_running_of_root (h : RunnerAt T p.self) (h0 : p.ppid = 0) :
    ∀ q ∈ (T.exit p).procs, q.state ≠ .running := by
  intro q hq hr
  simp only [Table.exit, if_pos h0] at hq
  obtain ⟨r, hmem, ⟨-, rfl⟩ | ⟨-, rfl⟩⟩ := mem_reparent.mp hq <;>
    exact not_running_of_dead h _ hmem hr

theorem runnerAt_spawn {ppid : Nat} (h : ∀ q ∈ T.procs, q.state ≠ .running) :
    RunnerAt (T.spawn ppid) (T.nextObj + 1) := by
  intro q hq hr
  rcases mem_spawn.mp hq with hq | rfl
  · exact absurd hr (h q hq)
  · rfl

/-- What every effect does to the runner: it stays, it is the forked child,
or the current process is dead and at most one other runs. -/
theorem effect_runner {e : Event} (he : Effect T p e T') (hp : p ∈ T.procs)
    (h : RunnerAt T p.self) :
    RunnerAt T' p.self ∨ (e = .call .fork ∧ ∃ a, RunnerAt T' a) ∨
      ((∃ z ∈ T'.procs, z.self = p.self ∧ z.state = .zombie) ∧ ∃ a, RunnerAt T' a) := by
  have hdead : (∃ z ∈ (T.exit p).procs, z.self = p.self ∧ z.state = .zombie) ∧
      ∃ a, RunnerAt (T.exit p) a := ⟨exit_zombie hp, runnerAt_exit h⟩
  have hroot : p.ppid = 0 → (∃ z ∈ ((T.exit p).spawn 0).procs,
      z.self = p.self ∧ z.state = .zombie) ∧ ∃ a, RunnerAt ((T.exit p).spawn 0) a := by
    intro h0
    obtain ⟨z, hz, hzs⟩ := exit_zombie hp
    exact ⟨⟨z, mem_spawn.mpr (Or.inl hz), hzs⟩, _, runnerAt_spawn (not_running_of_root h h0)⟩
  cases he with
  | tick => exact Or.inl h
  | execve => exact Or.inl h
  | other => exact Or.inl h
  | wait => exact Or.inl h
  | reap _ _ _ => exact Or.inl fun q hq => h q (mem_reap.mp hq).1
  | fork =>
      refine Or.inr (Or.inl ⟨rfl, T.nextObj + 1, ?_⟩)
      intro q hq hr
      obtain ⟨r, hmem, ⟨-, rfl⟩ | ⟨hne, rfl⟩⟩ := mem_setState.mp hq
      · simp at hr
      · rcases mem_spawn.mp hmem with hmem | rfl
        · exact absurd (h q hmem hr) hne
        · rfl
  | exit _ => exact Or.inr (Or.inr hdead)
  | exitRoot h0 => exact Or.inr (Or.inr (hroot h0))
  | fault _ => exact Or.inr (Or.inr hdead)
  | faultRoot h0 => exact Or.inr (Or.inr (hroot h0))
  | killNone _ => exact Or.inl h
  | killSelf _ _ => exact Or.inr (Or.inr hdead)
  | kill _ _ _ =>
      refine Or.inl fun q hq hr => ?_
      obtain ⟨r, hmem, ⟨-, rfl⟩ | ⟨-, rfl⟩⟩ := mem_setState.mp hq
      · simp at hr
      · exact h q hmem hr

theorem effect_oneRunner {e : Event} (he : Effect T p e T') (hp : p ∈ T.procs)
    (h : RunnerAt T p.self) : ∃ a, RunnerAt T' a := by
  rcases effect_runner he hp h with ha | ⟨-, ha⟩ | ⟨-, ha⟩
  · exact ⟨_, ha⟩
  · exact ha
  · exact ha

end Effects

/-! ## Pids that have not come round -/

/-- `next_pid` has not run past the range of an `int`, nor round: a fork
gives its child a higher pid than the parent's, and below 2³¹; a new shell
does not get pid 0. -/
def PidFresh (m : Machine) (t : Trap) : Prop :=
  ∀ p ∈ m.sched.procs, m.sched.current = some p.self →
    (t.event = .call .fork → p.pid < m.sched.nextPid ∧ m.sched.nextPid < 2147483648) ∧
    (p.ppid = 0 → (t.event = .fault ∨ ∃ status, t.event = .call (.exit status)) →
      m.sched.nextPid ≠ 0)

/-- Every process has a higher pid than its parent. -/
def Below (T : Table) : Prop := ∀ q ∈ T.procs, q.ppid < q.pid

theorem Below.exit {T : Table} (h : Below T) {p : Proc} (hp : p ∈ T.procs) : Below (T.exit p) := by
  intro q hq
  obtain ⟨r, hr, -, hpid, ⟨-, hpp⟩ | ⟨hpp, hq⟩⟩ := mem_exit hq
  · rw [hpp, ← hpid]
    exact h r hr
  · have h₁ := h p hp
    have h₂ := h r hr
    omega

theorem Below.spawn {T : Table} (h : Below T) {ppid : Nat} (hlt : ppid < T.nextPid) :
    Below (T.spawn ppid) := by
  intro q hq
  rcases mem_spawn.mp hq with hq | rfl
  · exact h q hq
  · exact hlt

theorem Below.setState {T : Table} (h : Below T) {self : Nat} {state : TaskState} :
    Below (T.setState self state) := by
  intro q hq
  obtain ⟨r, hmem, ⟨-, rfl⟩ | ⟨-, rfl⟩⟩ := mem_setState.mp hq
  · exact h r hmem
  · exact h q hmem

theorem exit_nextPid (T : Table) (p : Proc) : (T.exit p).nextPid = T.nextPid := by
  simp only [Table.exit]
  split <;> rfl

theorem Below.effect {T T' : Table} {p : Proc} {e : Event} (h : Below T) (he : Effect T p e T')
    (hp : p ∈ T.procs) (hfork : e = .call .fork → p.pid < T.nextPid)
    (hroot : p.ppid = 0 → (e = .fault ∨ ∃ status, e = .call (.exit status)) → T.nextPid ≠ 0) :
    Below T' := by
  have hshell : T.nextPid ≠ 0 → Below ((T.exit p).spawn 0) := by
    intro hn
    refine (h.exit hp).spawn ?_
    rw [exit_nextPid]
    omega
  cases he with
  | tick => exact h
  | execve => exact h
  | other => exact h
  | wait => exact h
  | reap _ _ _ => exact fun q hq => h q (mem_reap.mp hq).1
  | fork => exact (h.spawn (hfork rfl)).setState
  | exit _ => exact h.exit hp
  | exitRoot h0 => exact hshell (hroot h0 (Or.inr ⟨_, rfl⟩))
  | fault _ => exact h.exit hp
  | faultRoot h0 => exact hshell (hroot h0 (Or.inl rfl))
  | killNone _ => exact h
  | killSelf _ _ => exact h.exit hp
  | kill _ _ _ => exact h.setState

/-! ## The invariant -/

/-- The RUNNING process, if any, is the current one; a current process is on
the ring and below no descendant of its own. -/
structure RunnerInv (s : Sched) : Prop where
  wf : WF s
  below : Below s.table
  runner : ∀ c, s.current = some c → RunnerAt s.table c
  boot : s.current = none → (∀ t ∈ s.ring, t.state = .running) ∧ ∃ a, RunnerAt s.table a

theorem Dispatched.table {s s' : Sched} {frame : Frame} (h : Dispatched s s' frame) :
    s'.table = s.table := by
  simp only [Sched.table, h.procs, h.nextPid, h.nextObj]

/-- Where `schedule` finds at most one runner, it picks it. -/
theorem Dispatched.runner {s s' : Sched} {frame : Frame} (h : Dispatched s s' frame) {a : Nat}
    (ha : RunnerAt s.table a) : ∀ c, s'.current = some c → RunnerAt s'.table c := by
  intro c hc q hq hr
  obtain ⟨n, hn, hcur, -, hrun⟩ := h.picked
  rw [h.table] at hq
  have hnr : n.state = .running := by
    obtain ⟨u, hu, rfl⟩ := Sched.mem_procs.mp (h.procs ▸ hq : q ∈ s'.procs)
    exact hrun ⟨u, hu, hr⟩
  have hna : n.self = a := by
    refine ha n.toProc ?_ hnr
    rw [Sched.table, ← h.procs]
    exact List.mem_map_of_mem hn
  rw [ha q hq hr, ← hna]
  rw [hcur] at hc
  exact Option.some.inj hc

theorem Dispatched.current_some {s s' : Sched} {frame : Frame} (h : Dispatched s s' frame) :
    s'.current ≠ none := by
  obtain ⟨n, -, hc, -⟩ := h.picked
  rw [hc]
  exact Option.some_ne_none _

theorem RunnerInv.of_dispatched {s s' : Sched} {frame : Frame} (h : Dispatched s s' frame)
    (hb : Below s.table) {a : Nat} (ha : RunnerAt s.table a) : RunnerInv s' where
  wf := h.wf
  below := by rw [h.table]; exact hb
  runner := h.runner ha
  boot := fun hc => absurd hc h.current_some

theorem RunnerInv.init {m : Machine} (h : MachineBoot m) : RunnerInv m.sched := by
  have hwf := WF.boot h
  obtain ⟨init, obj, -, hs, -⟩ := h
  rw [hs] at hwf ⊢
  refine ⟨hwf, ?_, ?_, ?_⟩
  · simp [Below, Sched.table, Sched.procs, createUserTask, addTask]
  · simp [createUserTask, addTask]
  · simp [RunnerAt, Sched.table, Sched.procs, createUserTask, addTask]

theorem int32_pos {n : Nat} : int32 n > 0 ↔ 0 < n ∧ n < 2147483648 ∨ 4294967296 < n := by
  unfold int32
  split <;> omega

theorem RunnerInv.step {m m' : Machine} {t : Trap} (h : RunnerInv m.sched) (hg : PidFresh m t)
    (hs : MachineStep m t m') : RunnerInv m'.sched ∧ m'.sched.current ≠ none := by
  cases hc : m.sched.current with
  | none =>
      obtain ⟨hall, a, ha⟩ := h.boot hc
      obtain ⟨-, hd⟩ := boot_trap h.wf hc hall hs
      exact ⟨.of_dispatched hd h.below ha, hd.current_some⟩
  | some c =>
      have hown : ∀ p ∈ m.sched.procs, p.self = c → p.state = .zombie → p.ppid ≠ p.pid :=
        fun p hp _ _ => Nat.ne_of_lt (h.below p hp)
      obtain ⟨p, hp, rfl, s, hws, hsc, heff, hend⟩ := trap_cases h.wf hc hown hs
      obtain ⟨hfork, hroot⟩ := hg p hp hc
      have hb : Below s.table := h.below.effect heff hp (fun he => (hfork he).1) hroot
      have hrun := effect_runner heff hp (h.runner _ hc)
      obtain ⟨a, ha⟩ := effect_oneRunner heff hp (h.runner _ hc)
      rcases hend with ⟨hd, -⟩ | ⟨hr, -, hbad⟩
      · exact ⟨.of_dispatched hd hb ha, hd.current_some⟩
      · -- back in the current task: it did not die, and it did not fork
        have hstay : RunnerAt s.table p.self := by
          rcases hrun with ha | ⟨hf, -⟩ | ⟨⟨z, hz, hzs, hzz⟩, -⟩
          · exact ha
          · have := hfork hf
            exact absurd (int32_pos.mpr (Or.inl ⟨by omega, this.2⟩)) (hbad hf)
          · obtain ⟨u, hu, rfl⟩ := Sched.mem_procs.mp hz
            exact absurd hzz (hr.alive _ hsc u hu hzs)
        rw [hr.eq]
        refine ⟨⟨hws, hb, ?_, fun hn => ?_⟩, ?_⟩
        · intro c' hc'
          rw [hsc] at hc'
          cases hc'
          exact hstay
        · rw [hsc] at hn
          cases hn
        · rw [hsc]
          exact Option.some_ne_none _

/-! ## In every run -/

/-- At most one user task is RUNNING. -/
def OneRunner (s : Sched) : Prop :=
  ∀ t ∈ s.ring, ∀ u ∈ s.ring, t.user = true → u.user = true →
    t.state = .running → u.state = .running → t = u

/-- The RUNNING user task, if any, is `current_task`. -/
def RunnerIsCurrent (s : Sched) : Prop :=
  ∀ t ∈ s.ring, t.user = true → t.state = .running → s.current = some t.self

theorem RunnerInv.oneRunner {s : Sched} (h : RunnerInv s) : OneRunner s := by
  intro t ht u hu _ _ htr hur
  have hone : ∃ a, RunnerAt s.table a := by
    cases hc : s.current with
    | none => exact (h.boot hc).2
    | some c => exact ⟨c, h.runner c hc⟩
  obtain ⟨a, ha⟩ := hone
  have h₁ := ha t.toProc (List.mem_map_of_mem ht) htr
  have h₂ := ha u.toProc (List.mem_map_of_mem hu) hur
  exact List.inj_on_of_nodup_map h.wf.selfs ht hu (h₁.trans h₂.symm)

theorem RunnerInv.runnerIsCurrent {s : Sched} (h : RunnerInv s) (hc : s.current ≠ none) :
    RunnerIsCurrent s := by
  intro t ht _ htr
  obtain ⟨c, hc⟩ := Option.ne_none_iff_exists'.mp hc
  rw [hc, h.runner c hc t.toProc (List.mem_map_of_mem ht) htr]

theorem runner_inv {m : Machine} (hm : machineSystem.ReachVia PidFresh m) : RunnerInv m.sched :=
  System.ReachVia.invariant (I := fun m => RunnerInv m.sched) (fun _ h => .init h)
    (fun _ _ _ h hg hs => (h.step hg hs).1) hm

/-- In every run in which pids stay fresh at most one user task is RUNNING,
and every handler returns to it. -/
theorem one_runner_while_pids_fresh {m : Machine} (hm : machineSystem.ReachVia PidFresh m) :
    OneRunner m.sched ∧
      ∀ t m', PidFresh m t → MachineStep m t m' → RunnerIsCurrent m'.sched := by
  have h := runner_inv hm
  refine ⟨h.oneRunner, fun t m' hg hs => ?_⟩
  obtain ⟨h', hc'⟩ := h.step hg hs
  exact h'.runnerIsCurrent hc'

/-! ## Pids that do come round

A shell that forks a child, waits for it and starts again takes one pid a
round and keeps nothing else. -/

/-- The first shell, in some state and with some saved frame. -/
def shellTask (state : TaskState) (eip eax : Nat) : Task :=
  ⟨⟨2, 1, 0, state⟩, ⟨1, eip, eax⟩, 1, true, 0⟩

/-- Its child with pid `n`, made from the addresses `obj` and `obj + 1`. -/
def childTask (n obj : Nat) (state : TaskState) (eax : Nat) : Task :=
  ⟨⟨obj + 1, n, 1, state⟩, ⟨obj, 0, eax⟩, obj, true, 0⟩

/-- The shell alone, current, with `n` the next pid. -/
def aloneAt (n obj eip eax : Nat) : Sched :=
  ⟨[shellTask .running eip eax], some 2, n, 1, 0, obj⟩

/-- The machine as `kernel_main` leaves it, with the first addresses. -/
def bootMachine : Machine := ⟨createUserTask ⟨[], none, 1, 0, 0, 1⟩ 0, ⟨0, 0, 0⟩⟩

theorem bootMachine_boot : MachineBoot bootMachine := ⟨0, 1, by omega, rfl, rfl⟩

theorem bootMachine_tick :
    MachineStep bootMachine ⟨.tick, 0, 0⟩ ⟨aloneAt 2 3 0 0, ⟨1, 0, 0⟩⟩ :=
  ⟨Or.inl rfl, by decide⟩

section Round

variable {n obj eip eax : Nat}

theorem fork_from_alone (hn : n < 2147483648) (h0 : 0 < n) (hobj : 3 ≤ obj) :
    syscallHandler (aloneAt n obj eip eax) ⟨1, 0, 5⟩ .fork =
      (⟨[shellTask .blocked 0 n, childTask n obj .running 0], some (obj + 1), u32 (n + 1), obj, 0,
        obj + 2⟩, ⟨obj, 0, 0⟩) := by
  have h2 : obj + 1 ≠ 2 := by omega
  have hmod : (n : Int) % 4294967296 = n := by omega
  simp [syscallHandler, sysCall, forkTask, aloneAt, Sched.currentTask, shellTask, addTask,
    Sched.setTask, leaveCall, Sched.currentZombie, Call.isWait4, int32, hn, h0, schedule,
    Sched.after, scan, childTask, ofInt32, h2, hmod]

theorem exit_from_child (hn : 2 ≤ n) (hobj : 3 ≤ obj) :
    syscallHandler ⟨[shellTask .blocked 0 n, childTask n obj .running 0], some (obj + 1), u32 (n + 1),
        obj, 0, obj + 2⟩ ⟨obj, 0, 3⟩ (.exit 0) =
      (⟨[shellTask .running 0 n, childTask n obj .zombie 3], some 2, u32 (n + 1), 1, 0, obj + 2⟩,
        ⟨1, 0, n⟩) := by
  have h2 : 2 ≠ obj + 1 := by omega
  have hn1 : 1 ≠ n := by omega
  have hn0 : 0 ≠ n := by omega
  simp [syscallHandler, sysCall, sysExit, taskExit, unblockParentOf, updateFirst,
    Sched.currentTask, shellTask, Sched.setTask, leaveCall, Sched.currentZombie, int32,
    schedule, Sched.after, scan, childTask, h2, hn1, hn0]

theorem wait_from_parent (hn : 2 ≤ n) (hlt : n < 2147483648) (hobj : 3 ≤ obj) :
    syscallHandler ⟨[shellTask .running 0 n, childTask n obj .zombie 3], some 2, u32 (n + 1), 1, 0,
        obj + 2⟩ ⟨1, 0, 7⟩ (.wait4 4294967295 0) =
      (aloneAt (u32 (n + 1)) (obj + 2) 0 n, ⟨1, 0, n⟩) := by
  have h2 : 2 ≠ obj + 1 := by omega
  have hmod : (n : Int) % 4294967296 = n := by omega
  have hm2 : (n : Int) ≠ -2 := by omega
  simp [syscallHandler, sysCall, wait4, waitFound, waitsFor, removeTask, aloneAt,
    Sched.currentTask, shellTask, leaveCall, Sched.currentZombie, Call.isWait4, int32, ofInt32,
    childTask, h2, hlt, hmod, hm2]

end Round

theorem step_call {m : Machine} (c : Call) (eax : Nat) (hc : m.sched.current ≠ none) {s : Sched}
    {frame : Frame} (hstep : syscallHandler m.sched ⟨m.sched.tss, 0, eax⟩ c = (s, frame)) :
    MachineStep m ⟨.call c, 0, eax⟩ ⟨s, frame⟩ :=
  ⟨Or.inr hc, by simp only [isrCommonHandler, hstep]⟩

/-- The shell has forked, and its child with the pid 2 is current. -/
def firstFork : Machine :=
  ⟨⟨[shellTask .blocked 0 2, childTask 2 3 .running 0], some 4, 3, 3, 0, 5⟩, ⟨3, 0, 0⟩⟩

/-- The child has exited, and the shell goes on. -/
def firstExit : Machine :=
  ⟨⟨[shellTask .running 0 2, childTask 2 3 .zombie 3], some 2, 3, 1, 0, 5⟩, ⟨1, 0, 2⟩⟩

theorem firstFork_step : MachineStep ⟨aloneAt 2 3 0 0, ⟨1, 0, 0⟩⟩ ⟨.call .fork, 0, 5⟩ firstFork :=
  step_call .fork 5 (by simp [aloneAt]) (fork_from_alone (by omega) (by omega) (by omega))

theorem firstExit_step : MachineStep firstFork ⟨.call (.exit 0), 0, 3⟩ firstExit :=
  step_call (.exit 0) 3 (by simp [firstFork]) (exit_from_child (by omega) (by omega))

/-- The trap is no `kill`. -/
def NoKill (t : Trap) : Prop := ∀ pid sig, t.event ≠ .call (.kill pid sig)

theorem reach_call {m : Machine} (h : machineSystem.ReachVia (fun _ t => NoKill t) m) (c : Call)
    (eax : Nat) (hkill : ∀ pid sig, c ≠ .kill pid sig) (hc : m.sched.current ≠ none) {s : Sched}
    {frame : Frame} (hstep : syscallHandler m.sched ⟨m.sched.tss, 0, eax⟩ c = (s, frame)) :
    machineSystem.ReachVia (fun _ t => NoKill t) ⟨s, frame⟩ :=
  .step h (fun pid sig he => hkill pid sig (Event.call.inj he)) (step_call c eax hc hstep)

/-- The shell, alone, can be found with any next pid up to 2³¹. -/
theorem reach_aloneAt : ∀ k : Nat, 2 + k ≤ 2147483648 →
    ∃ obj eip eax regs, 3 ≤ obj ∧
      machineSystem.ReachVia (fun _ t => NoKill t) ⟨aloneAt (2 + k) obj eip eax, regs⟩
  | 0, _ => ⟨3, 0, 0, ⟨1, 0, 0⟩, by omega,
      .step (.init bootMachine_boot) (fun _ _ => by simp) bootMachine_tick⟩
  | k + 1, hk => by
      obtain ⟨obj, eip, eax, regs, hobj, hreach⟩ := reach_aloneAt k (by omega)
      have hu : u32 (2 + k + 1) = 2 + (k + 1) := u32_of_lt (by omega)
      have h₁ := reach_call hreach .fork 5 (by simp) (by simp [aloneAt]) (fork_from_alone (by omega) (by omega) hobj)
      have h₂ := reach_call h₁ (.exit 0) 3 (by simp) (by simp) (exit_from_child (by omega) hobj)
      have h₃ := reach_call h₂ (.wait4 4294967295 0) 7 (by simp) (by simp)
        (wait_from_parent (by omega) (by omega) hobj)
      rw [hu] at h₃
      exact ⟨obj + 2, 0, 2 + k, _, by omega, h₃⟩

/-- The fork that gets the pid 2³¹ returns to the blocked parent. -/
theorem fork_at_int_max {obj eip eax : Nat} (hobj : 3 ≤ obj) :
    syscallHandler (aloneAt 2147483648 obj eip eax) ⟨1, 0, 5⟩ .fork =
      (⟨[shellTask .blocked eip eax, childTask 2147483648 obj .running 0], some 2, 2147483649, 1, 0,
        obj + 2⟩, ⟨1, 0, 2147483648⟩) := by
  have h2 : obj + 1 ≠ 2 := by omega
  simp [syscallHandler, sysCall, forkTask, aloneAt, Sched.currentTask, shellTask, addTask,
    Sched.setTask, leaveCall, Sched.currentZombie, Call.isWait4, int32, childTask, ofInt32, u32, h2]

theorem runner_not_current :
    ¬∀ m, machineSystem.Reach m →
      OneRunner m.sched ∧ ∀ t m', MachineStep m t m' → RunnerIsCurrent m'.sched := by
  intro hall
  obtain ⟨obj, eip, eax, regs, hobj, hreach⟩ := reach_aloneAt 2147483646 (by omega)
  have hstep := step_call (m := ⟨aloneAt 2147483648 obj eip eax, regs⟩) .fork 5 (by simp [aloneAt])
    (fork_at_int_max hobj)
  have hreach' : machineSystem.Reach _ := hreach.mono fun _ _ _ => trivial
  have hcur := (hall _ hreach').2 _ _ hstep (childTask 2147483648 obj .running 0) (by simp) rfl rfl
  simp only [childTask, Option.some.injEq] at hcur
  omega

/-- The shell forks, and its child is current. -/
theorem first_fork_runs_child :
    machineSystem.ReachVia PidFresh ⟨aloneAt 2 3 0 0, ⟨1, 0, 0⟩⟩ ∧
      RunnerIsCurrent firstFork.sched := by
  have hreach : machineSystem.ReachVia PidFresh ⟨aloneAt 2 3 0 0, ⟨1, 0, 0⟩⟩ := by
    refine .step (.init bootMachine_boot) ?_ bootMachine_tick
    intro p _ hp
    simp [bootMachine, createUserTask, addTask] at hp
  refine ⟨hreach, (one_runner_while_pids_fresh hreach).2 ⟨.call .fork, 0, 5⟩ firstFork ?_ firstFork_step⟩
  intro p hp hc
  simp [Sched.procs, aloneAt, shellTask] at hp
  simp [hp, aloneAt]

end LiteBSD
