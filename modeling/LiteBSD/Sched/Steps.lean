/-
# `LiteBSD.Sched.Steps` — the machine, and what one trap can do to it

The machine is the scheduler with the frame that was handed to `iret` last.
A trap of the running program arrives on the kernel stack of the task state
segment; before the first tick there is no current task and only the timer
interrupts.

What a trap does is said ONCE, by `trap_cases`: first the call changes the
process list in one of the ways of `Effect`, which leaves `current_task`
alone; then the handler either returns to the current task or goes through
`schedule`, which changes no process and picks a RUNNING one if there is any
(`Dispatched`).  Every invariant of the following modules is proved from
these two.
-/
import LiteBSD.Lib.Runs
import LiteBSD.Sched.Model
import Mathlib.Data.List.Forall2
import Mathlib.Data.List.Nodup
import Mathlib.Data.List.TakeWhile

namespace LiteBSD

open Lib

/-! ## The machine -/

structure Machine where
  sched : Sched
  regs : Frame
deriving DecidableEq, Repr

/-- A trap, with the two registers the handlers read. -/
structure Trap where
  event : Event
  eip : Nat
  eax : Nat

/-- One trap, from its entry to `iret`. -/
def MachineStep (m : Machine) (t : Trap) (m' : Machine) : Prop :=
  (t.event = .tick ∨ m.sched.current ≠ none) ∧
    isrCommonHandler m.sched ⟨m.sched.tss, t.eip, t.eax⟩ t.event = .ret (m'.sched, m'.regs)

/-- `kernel_main` has made one user task and waits for the timer. -/
def MachineBoot (m : Machine) : Prop :=
  ∃ init obj, 0 < obj ∧ m.sched = createUserTask ⟨[], none, 1, 0, init, obj⟩ init ∧
    m.regs = ⟨0, 0, 0⟩

def machineSystem : System Machine Trap where
  init := MachineBoot
  step := MachineStep

/-! ## `updateFirst` -/

section UpdateFirst

variable {α β : Type} {test : α → Bool} {f : α → α}

theorem updateFirst_forall₂ {R : α → α → Prop} (hrefl : ∀ a, R a a) (hf : ∀ a, R a (f a))
    (l : List α) : List.Forall₂ R l (updateFirst test f l) := by
  induction l with
  | nil => exact .nil
  | cons a l ih =>
      simp only [updateFirst]
      split
      · exact .cons (hf a) (List.forall₂_same.mpr fun x _ => hrefl x)
      · exact .cons (hrefl a) ih

theorem map_updateFirst {g : α → β} {test' : β → Bool} {f' : β → β}
    (ht : ∀ a, test a = test' (g a)) (hf : ∀ a, g (f a) = f' (g a)) (l : List α) :
    (updateFirst test f l).map g = updateFirst test' f' (l.map g) := by
  induction l with
  | nil => rfl
  | cons a l ih =>
      simp only [updateFirst, List.map_cons, ht a]
      split
      · simp [hf]
      · simp [ih]

theorem filter_updateFirst {keep : α → Bool} (h : ∀ a, test a → keep a ∧ keep (f a))
    (l : List α) : (updateFirst test f l).filter keep = updateFirst test f (l.filter keep) := by
  induction l with
  | nil => rfl
  | cons a l ih =>
      by_cases ht : test a
      · simp [updateFirst, ht, h a ht]
      · by_cases hk : keep a
        · simp [updateFirst, ht, hk, ih]
        · simp [updateFirst, ht, hk, ih]

theorem updateFirst_append_cons {l r : List α} {a : α} (h : ∀ b ∈ l, ¬test b) (ha : test a) :
    updateFirst test f (l ++ a :: r) = l ++ f a :: r := by
  induction l with
  | nil => simp [updateFirst, ha]
  | cons b l ih =>
      have hb := h b List.mem_cons_self
      simp [updateFirst, hb, ih fun c hc => h c (List.mem_cons_of_mem _ hc)]

end UpdateFirst

/-! ## Well-formed schedulers -/

/-- Addresses and stack bases are distinct and come from the supply, every frame
lies on the stack of its task, and the segment points at the stack of the
current task. -/
structure WF (s : Sched) : Prop where
  selfs : (s.ring.map fun t => t.self).Nodup
  bases : (s.ring.map fun t => t.stackBase).Nodup
  old : ∀ t ∈ s.ring, t.self < s.nextObj ∧ t.stackBase < s.nextObj
  frames : ∀ t ∈ s.ring, t.frame.stack = t.stackBase
  user : ∀ t ∈ s.ring, t.user = true
  nonempty : s.ring ≠ []
  cur : ∀ c, s.current = some c → ∃ t ∈ s.ring, t.self = c ∧ s.tss = t.stackBase

/-- A store that moves neither a task nor its frame. -/
structure InPlace (t t' : Task) : Prop where
  self : t'.self = t.self
  stackBase : t'.stackBase = t.stackBase
  stack : t'.frame.stack = t.frame.stack
  user : t'.user = t.user

theorem InPlace.refl (t : Task) : InPlace t t := ⟨rfl, rfl, rfl, rfl⟩

theorem map_eq_of_forall₂ {α β : Type} {R : α → α → Prop} {g : α → β}
    (hR : ∀ a b, R a b → g b = g a) {l l' : List α} (h : List.Forall₂ R l l') :
    l'.map g = l.map g := by
  induction h with
  | nil => rfl
  | cons hab _ ih => simp [hR _ _ hab, ih]

theorem exists_of_forall₂ {α : Type} {R : α → α → Prop} {l l' : List α}
    (h : List.Forall₂ R l l') : ∀ b ∈ l', ∃ a ∈ l, R a b := by
  induction h with
  | nil => simp
  | cons hab _ ih =>
      intro b hb
      rcases List.mem_cons.mp hb with rfl | hb
      · exact ⟨_, List.mem_cons_self, hab⟩
      · obtain ⟨a, ha, hr⟩ := ih b hb
        exact ⟨a, List.mem_cons_of_mem _ ha, hr⟩

/-- Stores in place keep a scheduler well formed. -/
theorem WF.inPlace {s : Sched} (h : WF s) {ring : List Task}
    (hr : List.Forall₂ InPlace s.ring ring) : WF { s with ring := ring } := by
  have hself : ring.map (fun t => t.self) = s.ring.map fun t => t.self :=
    map_eq_of_forall₂ (fun _ _ h => h.self) hr
  have hstack : ring.map (fun t => t.stackBase) = s.ring.map fun t => t.stackBase :=
    map_eq_of_forall₂ (fun _ _ h => h.stackBase) hr
  have hback := exists_of_forall₂ hr
  refine ⟨?_, ?_, ?_, ?_, ?_, ?_, ?_⟩
  · rw [hself]
    exact h.selfs
  · rw [hstack]
    exact h.bases
  · intro t ht
    obtain ⟨u, hu, hp⟩ := hback t ht
    rw [hp.self, hp.stackBase]
    exact h.old u hu
  · intro t ht
    obtain ⟨u, hu, hp⟩ := hback t ht
    rw [hp.stack, hp.stackBase]
    exact h.frames u hu
  · intro t ht
    obtain ⟨u, hu, hp⟩ := hback t ht
    rw [hp.user]
    exact h.user u hu
  · intro h0
    subst h0
    exact h.nonempty (List.forall₂_nil_right_iff.mp hr)
  · intro c hc
    obtain ⟨t, ht, hself', htss⟩ := h.cur c hc
    have hflip : List.Forall₂ (fun a b => InPlace b a) ring s.ring := hr.flip
    obtain ⟨u, hu, hp⟩ := exists_of_forall₂ hflip t ht
    exact ⟨u, hu, by rw [hp.self]; exact hself', by rw [hp.stackBase]; exact htss⟩

theorem WF.map {s : Sched} (h : WF s) {g : Task → Task} (hg : ∀ t ∈ s.ring, InPlace t (g t)) :
    WF { s with ring := s.ring.map g } := by
  refine h.inPlace ?_
  rw [List.forall₂_map_right_iff]
  exact List.forall₂_same.mpr hg

/-- A task with addresses from the supply joins the ring. -/
theorem WF.of_addTask {s : Sched} (h : WF s) {task : Task} (hself : task.self = s.nextObj + 1)
    (hstack : task.stackBase = s.nextObj) (hframe : task.frame.stack = s.nextObj)
    (huser : task.user = true) (pid : Nat) :
    WF (addTask { s with nextPid := pid, nextObj := s.nextObj + 2 } task) := by
  refine ⟨?_, ?_, ?_, ?_, ?_, ?_, ?_⟩
  · simp only [addTask, List.map_append, List.map_cons, List.map_nil]
    refine List.Nodup.append h.selfs (List.nodup_singleton _) ?_
    simp only [List.disjoint_singleton, List.mem_map, not_exists, not_and]
    intro t ht
    have := (h.old t ht).1
    omega
  · simp only [addTask, List.map_append, List.map_cons, List.map_nil]
    refine List.Nodup.append h.bases (List.nodup_singleton _) ?_
    simp only [List.disjoint_singleton, List.mem_map, not_exists, not_and]
    intro t ht
    have := (h.old t ht).2
    omega
  · simp only [addTask, List.forall_mem_append, List.forall_mem_singleton, hself, hstack]
    refine ⟨fun t ht => ?_, by omega, by omega⟩
    have := h.old t ht
    omega
  · simp only [addTask, List.forall_mem_append, List.forall_mem_singleton]
    exact ⟨h.frames, hframe.trans hstack.symm⟩
  · simp only [addTask, List.forall_mem_append, List.forall_mem_singleton]
    exact ⟨h.user, huser⟩
  · simp [addTask]
  · intro c hc
    obtain ⟨t, ht, hs, htss⟩ := h.cur c hc
    exact ⟨t, List.mem_append_left _ ht, hs, htss⟩

theorem WF.respawn {s : Sched} (h : WF s) : WF (respawnUserShell s) :=
  h.of_addTask rfl rfl rfl rfl _

/-- Any task but the current one may leave the ring. -/
theorem WF.of_removeTask {s : Sched} (h : WF s) {target : Nat} (hcur : ∃ c, s.current = some c)
    (hne : s.current ≠ some target) : WF (removeTask s target) := by
  have hsub : (removeTask s target).ring.Sublist s.ring := List.filter_sublist
  have hkeep : ∀ c, s.current = some c → ∃ t ∈ (removeTask s target).ring,
      t.self = c ∧ s.tss = t.stackBase := by
    intro c hc
    obtain ⟨t, ht, hs, htss⟩ := h.cur c hc
    refine ⟨t, ?_, hs, htss⟩
    have : t.self ≠ target := by
      rintro rfl
      exact hne (by rw [hc, hs])
    simpa [removeTask] using ⟨ht, this⟩
  refine ⟨h.selfs.sublist (hsub.map _), h.bases.sublist (hsub.map _), ?_, ?_, ?_, ?_, hkeep⟩
  · exact fun t ht => h.old t (hsub.subset ht)
  · exact fun t ht => h.frames t (hsub.subset ht)
  · exact fun t ht => h.user t (hsub.subset ht)
  · obtain ⟨c, hc⟩ := hcur
    obtain ⟨t, ht, -⟩ := hkeep c hc
    exact List.ne_nil_of_mem ht

theorem WF.boot {m : Machine} (h : MachineBoot m) : WF m.sched := by
  obtain ⟨init, obj, hpos, hs, -⟩ := h
  rw [hs]
  refine ⟨?_, ?_, ?_, ?_, ?_, ?_, ?_⟩ <;> simp [createUserTask, addTask]

/-- `*current_task` is the task on the ring at that address. -/
theorem WF.current_found {s : Sched} (h : WF s) {c : Nat} (hc : s.current = some c) :
    ∃ t ∈ s.ring, s.currentTask = some t ∧ t.self = c ∧ s.tss = t.stackBase := by
  obtain ⟨t, ht, hs, htss⟩ := h.cur c hc
  refine ⟨t, ht, ?_, hs, htss⟩
  have hfind : ∃ u, s.ring.find? (fun t => t.self = c) = some u :=
    Option.isSome_iff_exists.mp (List.find?_isSome.mpr ⟨t, ht, by simpa using hs⟩)
  obtain ⟨u, hu⟩ := hfind
  have hus : u.self = c := by simpa using List.find?_some hu
  have : u = t := List.inj_on_of_nodup_map h.selfs (List.mem_of_find?_eq_some hu) ht
    (hus.trans hs.symm)
  simp [Sched.currentTask, hc, hu, this]

/-! ## `schedule` -/

/-- The processes of the ring, in ring order. -/
abbrev Sched.procs (s : Sched) : List Proc := s.ring.map Task.toProc

theorem Sched.mem_procs {s : Sched} {p : Proc} :
    p ∈ s.procs ↔ ∃ t ∈ s.ring, t.toProc = p := by
  simp [Sched.procs]

theorem scan_spec (start : Task) (l : List Task) :
    (scan start l ∈ l ∧ (scan start l).state = .running) ∨
      (scan start l = start ∧ ∀ t ∈ l, t.state ≠ .running) := by
  induction l with
  | nil => exact Or.inr ⟨rfl, by simp⟩
  | cons t l ih =>
      simp only [scan]
      split
      · rename_i ht
        exact Or.inl ⟨List.mem_cons_self, ht⟩
      · rename_i ht
        rcases ih with ⟨hm, hr⟩ | ⟨he, hn⟩
        · exact Or.inl ⟨List.mem_cons_of_mem _ hm, hr⟩
        · exact Or.inr ⟨he, by simpa [ht] using hn⟩

/-- Going round from any task meets every task. -/
theorem Sched.mem_after {s : Sched} {cur : Nat} (hcur : ∃ t ∈ s.ring, t.self = cur) (t : Task) :
    t ∈ s.after cur ↔ t ∈ s.ring := by
  have hsplit := List.takeWhile_append_dropWhile (p := fun t : Task => decide (t.self ≠ cur))
    (l := s.ring)
  have hne : (s.ring.dropWhile fun t => decide (t.self ≠ cur)) ≠ [] := by
    intro h0
    obtain ⟨u, hu, hs⟩ := hcur
    have := List.dropWhile_eq_nil_iff.mp h0 u hu
    simp [hs] at this
  obtain ⟨a, r, har⟩ := List.exists_cons_of_ne_nil hne
  rw [har] at hsplit
  simp only [Sched.after, har, List.tail_cons, List.take_succ_cons, List.take_zero]
  conv => rhs; rw [← hsplit]
  simp only [List.mem_append, List.mem_cons, List.not_mem_nil, or_false]
  tauto

/-- `schedule` changed no process; the task it picked is RUNNING if any is,
and its frame is handed back. -/
structure Dispatched (s s' : Sched) (frame : Frame) : Prop where
  wf : WF s'
  procs : s'.procs = s.procs
  nextPid : s'.nextPid = s.nextPid
  nextObj : s'.nextObj = s.nextObj
  picked : ∃ n ∈ s'.ring, s'.current = some n.self ∧ frame.stack = n.stackBase ∧
    ((∃ t ∈ s'.ring, t.state = .running) → n.state = .running)

theorem schedule_dispatched {s : Sched} (h : WF s) {frame : Frame} (hf : frame.stack = s.tss)
    (hboot : s.current = none → ∀ t ∈ s.ring, t.state = .running) :
    Dispatched s (schedule s frame).1 (schedule s frame).2 := by
  obtain ⟨first, rest, hring⟩ := List.exists_cons_of_ne_nil h.nonempty
  cases hc : s.current with
  | none =>
      have hmem : first ∈ s.ring := by simp [hring]
      have hs : schedule s frame =
          ({ s with current := some first.self, tss := first.stackBase }, first.frame) := by
        simp [schedule, hring, hc]
      rw [hs]
      refine ⟨⟨h.selfs, h.bases, h.old, h.frames, h.user, h.nonempty, ?_⟩, rfl, rfl, rfl,
        first, hmem, rfl, h.frames first hmem, fun _ => hboot hc first hmem⟩
      intro c hc'
      cases hc'
      exact ⟨first, hmem, rfl, rfl⟩
  | some c =>
      -- the store into `current_task->frame`
      obtain ⟨cur₀, hcur₀, -, hself₀, htss₀⟩ := h.current_found hc
      generalize hg : s.setTask c (fun t => { t with frame := frame }) = g
      have hgr : g.ring = s.ring.map fun t => if t.self = c then { t with frame := frame } else t :=
        by rw [← hg]; rfl
      have hwf : WF g := by
        rw [← hg]
        refine h.map fun t ht => ?_
        split
        · rename_i hts
          have : t = cur₀ := List.inj_on_of_nodup_map h.selfs ht hcur₀ (hts.trans hself₀.symm)
          refine ⟨rfl, rfl, ?_, rfl⟩
          show frame.stack = t.frame.stack
          rw [hf, htss₀, this, h.frames _ hcur₀]
        · exact InPlace.refl t
      have hprocs : g.procs = s.procs := by
        simp only [Sched.procs, hgr, List.map_map]
        refine List.map_congr_left fun t _ => ?_
        simp only [Function.comp_apply]
        split <;> rfl
      have hgc : g.current = some c := by rw [← hg]; exact hc
      obtain ⟨cur, hcur, hcurT, hself, -⟩ := hwf.current_found hgc
      have hafter := @Sched.mem_after g c ⟨cur, hcur, hself⟩
      have hne : g.after c ≠ [] := List.ne_nil_of_mem ((hafter cur).mpr hcur)
      obtain ⟨start, tl, hst⟩ := List.exists_cons_of_ne_nil hne
      generalize hn : (if (scan start (start :: tl)).state ≠ .running ∧ cur.state = .running
        then cur else scan start (start :: tl)) = next
      have hs : schedule s frame =
          ({ g with current := some next.self, tss := next.stackBase }, next.frame) := by
        simp only [schedule, hring, hc]
        rw [hg, hst, hcurT]
        simp only [hn]
      have hnext : next ∈ g.ring ∧ ((∃ t ∈ g.ring, t.state = .running) → next.state = .running) := by
        rcases scan_spec start (start :: tl) with ⟨hm, hr⟩ | ⟨he, hnone⟩
        · have : next = scan start (start :: tl) := by rw [← hn, if_neg (by simp [hr])]
          rw [this]
          exact ⟨(hafter _).mp (hst ▸ hm), fun _ => hr⟩
        · have hnot : ∀ t ∈ g.ring, t.state ≠ .running := fun t ht =>
            hnone t (hst ▸ (hafter t).mpr ht)
          have : next = start := by rw [← hn, if_neg (fun h => hnot cur hcur h.2), he]
          rw [this]
          exact ⟨(hafter _).mp (hst ▸ List.mem_cons_self),
            fun ⟨t, ht, hr⟩ => absurd hr (hnot t ht)⟩
      rw [hs]
      refine ⟨⟨hwf.selfs, hwf.bases, hwf.old, hwf.frames, hwf.user, hwf.nonempty, ?_⟩,
        hprocs, by rw [← hg]; rfl, by rw [← hg]; rfl, next, hnext.1, rfl,
        hwf.frames next hnext.1, hnext.2⟩
      intro c' hc'
      cases hc'
      exact ⟨next, hnext.1, rfl, rfl⟩

/-! ## What a call does to the processes -/

/-- The processes and the two counters new ones are made from. -/
structure Table where
  procs : List Proc
  nextPid : Nat
  nextObj : Nat

def Sched.table (s : Sched) : Table := ⟨s.procs, s.nextPid, s.nextObj⟩

namespace Table

def setState (T : Table) (self : Nat) (state : TaskState) : Table :=
  { T with procs := T.procs.map fun q => if q.self = self then { q with state := state } else q }

def reap (T : Table) (self : Nat) : Table :=
  { T with procs := T.procs.filter fun q => q.self ≠ self }

/-- A new RUNNING process at the end of the ring. -/
def spawn (T : Table) (ppid : Nat) : Table :=
  ⟨T.procs ++ [⟨T.nextObj + 1, T.nextPid, ppid, .running⟩], u32 (T.nextPid + 1), T.nextObj + 2⟩

/-- Waking the first BLOCKED process with a given pid. -/
def wake (T : Table) (pid : Nat) : Table :=
  { T with
    procs := updateFirst (fun q => q.pid = pid ∧ q.state = .blocked)
      (fun q => { q with state := .running }) T.procs }

/-- Handing the children of `pid` to `ppid`. -/
def reparent (T : Table) (pid ppid : Nat) : Table :=
  { T with procs := T.procs.map fun q => if q.ppid = pid then { q with ppid := ppid } else q }

/-- The death of `p`. -/
def exit (T : Table) (p : Proc) : Table :=
  let T := T.setState p.self .zombie
  let T := if p.ppid = 0 then T else T.wake p.ppid
  T.reparent p.pid p.ppid

end Table

/-- What an event does to the processes when `p` is current. -/
inductive Effect (T : Table) (p : Proc) : Event → Table → Prop
  | tick : Effect T p .tick T
  | execve {entry : Option Nat} : Effect T p (.call (.execve entry)) T
  | other {ret : Int} : Effect T p (.call (.other ret)) T
  | wait {pid options : Nat} : Effect T p (.call (.wait4 pid options)) T
  | reap {pid options : Nat} {q : Proc} : q ∈ T.procs → q.ppid = p.pid → q.state = .zombie →
      Effect T p (.call (.wait4 pid options)) (T.reap q.self)
  | fork : Effect T p (.call .fork) ((T.spawn p.pid).setState p.self .blocked)
  | exit {status : Nat} : p.ppid ≠ 0 → Effect T p (.call (.exit status)) (T.exit p)
  | exitRoot {status : Nat} : p.ppid = 0 →
      Effect T p (.call (.exit status)) ((T.exit p).spawn 0)
  | fault : p.ppid ≠ 0 → Effect T p .fault (T.exit p)
  | faultRoot : p.ppid = 0 → Effect T p .fault ((T.exit p).spawn 0)
  | killNone {pid sig : Nat} : sig = 0 ∨ (T.procs.find? fun q => q.pid = pid) = none →
      Effect T p (.call (.kill pid sig)) T
  | killSelf {pid sig : Nat} : sig ≠ 0 → (T.procs.find? fun q => q.pid = pid) = some p →
      Effect T p (.call (.kill pid sig)) (T.exit p)
  | kill {pid sig : Nat} {q : Proc} : sig ≠ 0 →
      (T.procs.find? fun q => q.pid = pid) = some q → q.self ≠ p.self →
      Effect T p (.call (.kill pid sig)) (T.setState q.self .zombie)

section Calls

variable {s : Sched} {cur : Task}

theorem setTask_wf (h : WF s) (self : Nat) {f : Task → Task} (hf : ∀ t, InPlace t (f t)) :
    WF (s.setTask self f) := by
  refine h.map fun t _ => ?_
  split
  · exact hf t
  · exact InPlace.refl t

theorem setTask_table (self : Nat) {f : Task → Task} (state : TaskState)
    (hf : ∀ t, (f t).toProc = { t.toProc with state := state }) :
    (s.setTask self f).table = s.table.setState self state := by
  simp only [Sched.table, Sched.setTask, Sched.procs, Table.setState, List.map_map]
  congr 1
  refine List.map_congr_left fun t _ => ?_
  simp only [Function.comp_apply]
  split <;> simp [hf]

theorem unblockParentOf_wf (h : WF s) (child : Task) : WF (unblockParentOf s child) := by
  unfold unblockParentOf
  split
  · exact h
  · refine h.inPlace (updateFirst_forall₂ InPlace.refl ?_ _)
    exact fun t => ⟨rfl, rfl, rfl, rfl⟩

theorem unblockParentOf_table (child : Task) :
    (unblockParentOf s child).table =
      if child.ppid = 0 then s.table else s.table.wake child.ppid := by
  unfold unblockParentOf
  split
  · rfl
  · simp only [Sched.table, Sched.procs, Table.wake]
    congr 1
    refine map_updateFirst (g := Task.toProc) ?_ ?_ _
    · exact fun t => rfl
    · exact fun t => rfl

theorem taskExit_spec (h : WF s) (hcur : s.currentTask = some cur) (status : Int) :
    WF (taskExit s status) ∧ (taskExit s status).current = s.current ∧
      (taskExit s status).tss = s.tss ∧
      (taskExit s status).table = s.table.exit cur.toProc := by
  simp only [taskExit, hcur]
  generalize hg : s.setTask cur.self (fun t => { t with state := .zombie, exitCode := status }) = g
  have hgw : WF g := by
    rw [← hg]
    exact setTask_wf h _ fun t => ⟨rfl, rfl, rfl, rfl⟩
  have hgt : g.table = s.table.setState cur.self .zombie := by
    rw [← hg]
    exact setTask_table _ .zombie fun t => rfl
  have hgc : g.current = s.current ∧ g.tss = s.tss := by
    rw [← hg]
    exact ⟨rfl, rfl⟩
  have hu := unblockParentOf_wf hgw cur
  have hut := @unblockParentOf_table g cur
  have huc : (unblockParentOf g cur).current = g.current ∧
      (unblockParentOf g cur).tss = g.tss := by
    unfold unblockParentOf
    split <;> exact ⟨rfl, rfl⟩
  refine ⟨?_, huc.1.trans hgc.1, huc.2.trans hgc.2, ?_⟩
  · refine hu.map fun t _ => ?_
    split
    · exact ⟨rfl, rfl, rfl, rfl⟩
    · exact InPlace.refl t
  · have hrep : Sched.table { unblockParentOf g cur with
          ring := (unblockParentOf g cur).ring.map fun t =>
            if t.ppid = cur.pid then { t with ppid := cur.ppid } else t } =
        (unblockParentOf g cur).table.reparent cur.pid cur.ppid := by
      simp only [Sched.table, Sched.procs, Table.reparent, List.map_map]
      congr 1
      refine List.map_congr_left fun t _ => ?_
      simp only [Function.comp_apply]
      split <;> rfl
    rw [hrep, hut, hgt]
    rfl

theorem respawn_spec (h : WF s) : WF (respawnUserShell s) ∧
    (respawnUserShell s).current = s.current ∧ (respawnUserShell s).tss = s.tss ∧
    (respawnUserShell s).table = s.table.spawn 0 := by
  refine ⟨h.respawn, rfl, rfl, ?_⟩
  simp [Sched.table, Sched.procs, respawnUserShell, createUserTask, addTask, Table.spawn]

/-- A call left a well-formed scheduler with the same current task and
changed the processes by its effect. -/
structure Called (s : Sched) (p : Proc) (frame : Frame) (call : Call)
    (r : Sched × Frame × Int) : Prop where
  wf : WF r.1
  current : r.1.current = s.current
  tss : r.1.tss = s.tss
  stack : r.2.1.stack = frame.stack
  effect : Effect s.table p (.call call) r.1.table

/-- Every call has its effect.  A zombie that was resumed must not be its
own parent, or `wait4` could reap it. -/
theorem sysCall_effect (h : WF s) (hcur : s.currentTask = some cur)
    (hc : s.current = some cur.self) (hmem : cur ∈ s.ring)
    (hown : cur.state = .zombie → cur.ppid ≠ cur.pid) {frame : Frame}
    (hframe : frame.stack = cur.stackBase) (call : Call) :
    Called s cur.toProc frame call (sysCall s frame call) := by
  have hfind : ∀ pid, (s.table.procs.find? fun q => decide (q.pid = pid)) =
      (findTask s pid).map Task.toProc := by
    intro pid
    simp only [Sched.table, Sched.procs, findTask, List.find?_map]
    rfl
  cases call with
  | exit status =>
      obtain ⟨hw, hcu, hts, htb⟩ := taskExit_spec h hcur (int32 status)
      simp only [sysCall, sysExit, hcur, Option.map_some, Option.getD_some]
      by_cases h0 : cur.ppid = 0
      · obtain ⟨hw', hcu', hts', htb'⟩ := respawn_spec hw
        rw [if_pos h0]
        exact ⟨hw', hcu'.trans hcu, hts'.trans hts, rfl, by rw [htb', htb]; exact .exitRoot h0⟩
      · rw [if_neg h0]
        exact ⟨hw, hcu, hts, rfl, by rw [htb]; exact .exit h0⟩
  | fork =>
      simp only [sysCall, forkTask, hcur]
      rw [if_neg (not_not.mpr hframe)]
      have huser := h.user cur hmem
      refine ⟨?_, rfl, rfl, rfl, ?_⟩
      · refine setTask_wf ?_ _ fun t => ⟨rfl, rfl, rfl, rfl⟩
        refine h.of_addTask ?_ ?_ ?_ ?_ _
        · rfl
        · rfl
        · rfl
        · exact huser
      · rw [setTask_table _ .blocked fun t => rfl]
        have : (addTask { s with nextPid := u32 (s.nextPid + 1), nextObj := s.nextObj + 2 }
            { self := s.nextObj + 1, pid := s.nextPid, ppid := cur.pid, state := .running,
              frame := { frame with stack := s.nextObj, eax := 0 }, stackBase := s.nextObj,
              user := cur.user, exitCode := 0 }).table = s.table.spawn cur.pid := by
          simp [Sched.table, Sched.procs, addTask, Table.spawn]
        rw [this]
        exact .fork
  | execve entry =>
      cases entry with
      | none => exact ⟨h, rfl, rfl, rfl, .execve⟩
      | some entry => exact ⟨h, rfl, rfl, rfl, .execve⟩
  | wait4 pid options =>
      simp only [sysCall, wait4, hcur]
      split
      · exact ⟨h, rfl, rfl, rfl, .wait⟩
      · cases hf : waitFound s cur pid with
        | none =>
            simp only
            split <;> exact ⟨h, rfl, rfl, rfl, .wait⟩
        | some found =>
            have hfm : found ∈ s.ring := List.mem_of_find?_eq_some hf
            have hft := List.find?_some hf
            simp only [waitsFor, Bool.and_eq_true, decide_eq_true_eq] at hft
            have hne : s.current ≠ some found.self := by
              rw [hc]
              intro he
              have : cur = found :=
                List.inj_on_of_nodup_map h.selfs hmem hfm (Option.some.inj he)
              rw [← this] at hft
              exact hown hft.2 hft.1.1
            refine ⟨h.of_removeTask ⟨_, hc⟩ hne, rfl, rfl, rfl, ?_⟩
            have : (removeTask s found.self).table = s.table.reap found.self := by
              simp [Sched.table, Sched.procs, removeTask, Table.reap, List.filter_map,
                Function.comp_def]
            simp only [this]
            exact .reap (List.mem_map_of_mem hfm) hft.1.1 hft.2
  | kill pid sig =>
      simp only [sysCall, sysKill]
      have hp := hfind pid
      cases hf : findTask s pid with
      | none =>
          rw [hf] at hp
          exact ⟨h, rfl, rfl, rfl, .killNone (Or.inr hp)⟩
      | some target =>
          rw [hf] at hp
          simp only
          by_cases h0 : sig = 0
          · rw [if_pos h0]
            exact ⟨h, rfl, rfl, rfl, .killNone (Or.inl h0)⟩
          rw [if_neg h0]
          have htm : target ∈ s.ring := List.mem_of_find?_eq_some hf
          by_cases hs : some target.self = s.current
          · rw [if_pos hs]
            have : target = cur :=
              List.inj_on_of_nodup_map h.selfs htm hmem (Option.some.inj (hs.trans hc))
            rw [this] at hp
            obtain ⟨hw, hcu, hts, htb⟩ := taskExit_spec h hcur (int32 (u32 (128 + sig)))
            exact ⟨hw, hcu, hts, rfl, by rw [htb]; exact .killSelf h0 hp⟩
          · rw [if_neg hs]
            refine ⟨setTask_wf h _ fun t => ⟨rfl, rfl, rfl, rfl⟩, rfl, rfl, rfl, ?_⟩
            rw [setTask_table _ .zombie fun t => rfl]
            exact .kill (q := target.toProc) h0 hp fun he => hs (by rw [hc, he])
  | other ret => exact ⟨h, rfl, rfl, rfl, .other⟩

end Calls

/-! ## What a trap does to the machine -/

/-- The handler went back to the current task, which is no zombie. -/
structure Resumed (s s' : Sched) (frame : Frame) : Prop where
  eq : s' = s
  stack : frame.stack = s.tss
  alive : ∀ c, s.current = some c → ∀ t ∈ s.ring, t.self = c → t.state ≠ .zombie

theorem currentZombie_iff {s : Sched} (h : WF s) {c : Nat} (hc : s.current = some c) :
    s.currentZombie = true ↔ ∃ t ∈ s.ring, t.self = c ∧ t.state = .zombie := by
  obtain ⟨t, ht, hcur, hself, -⟩ := h.current_found hc
  simp only [Sched.currentZombie, hcur, Option.any_some, decide_eq_true_eq]
  constructor
  · exact fun hz => ⟨t, ht, hself, hz⟩
  · rintro ⟨u, hu, hus, hz⟩
    have : u = t := List.inj_on_of_nodup_map h.selfs hu ht (hus.trans hself.symm)
    rwa [← this]

theorem resumed_of_not_zombie {s : Sched} (h : WF s) {c : Nat} (hc : s.current = some c)
    (hz : ¬s.currentZombie = true) {frame : Frame} (hf : frame.stack = s.tss) :
    Resumed s s frame := by
  refine ⟨rfl, hf, ?_⟩
  intro c' hc' t ht hts hzt
  rw [hc] at hc'
  cases hc'
  exact hz ((currentZombie_iff h hc).mpr ⟨t, ht, hts, hzt⟩)

theorem boot_trap {m m' : Machine} {t : Trap} (h : WF m.sched) (hc : m.sched.current = none)
    (hall : ∀ t ∈ m.sched.ring, t.state = .running) (hs : MachineStep m t m') :
    t.event = .tick ∧ Dispatched m.sched m'.sched m'.regs := by
  obtain ⟨he | hn, hret⟩ := hs
  · refine ⟨he, ?_⟩
    rw [he] at hret
    simp only [isrCommonHandler, Exec.ret.injEq] at hret
    have hd := @schedule_dispatched _ h ⟨m.sched.tss, t.eip, t.eax⟩ rfl fun _ => hall
    rw [hret] at hd
    exact hd
  · exact absurd hc hn

/-- Leaving a call: on to the task `schedule` picks, or back. -/
theorem leaveCall_cases {s : Sched} {c : Nat} (h : WF s) (hc : s.current = some c) {frame : Frame}
    (hf : frame.stack = s.tss) {call : Call} (ret : Int)
    (hfork : call = .fork → ¬s.currentZombie = true) :
    Dispatched s (leaveCall s frame call ret).1 (leaveCall s frame call ret).2 ∧
        (call = .fork → ret > 0) ∨
      Resumed s (leaveCall s frame call ret).1 (leaveCall s frame call ret).2 ∧
        (call = .fork → ¬ret > 0) := by
  have hno : s.current = none → ∀ t ∈ s.ring, t.state = .running := by
    intro h₂
    rw [hc] at h₂
    cases h₂
  unfold leaveCall
  by_cases hz : s.currentZombie = true
  · rw [if_pos hz]
    exact Or.inl ⟨schedule_dispatched h hf hno, fun hk => absurd hz (hfork hk)⟩
  rw [if_neg hz]
  by_cases hw : call.isWait4 = true ∧ ret = -2
  · rw [if_pos hw]
    refine Or.inl ⟨schedule_dispatched h hf hno, ?_⟩
    rintro rfl
    simp [Call.isWait4] at hw
  rw [if_neg hw]
  by_cases hk : call = .fork ∧ ret > 0
  · rw [if_pos hk]
    exact Or.inl ⟨schedule_dispatched h hf hno, fun _ => hk.2⟩
  · rw [if_neg hk, if_neg hz]
    exact Or.inr ⟨resumed_of_not_zombie h hc hz hf, fun hc' hp => hk ⟨hc', hp⟩⟩

/-- A task that has forked is BLOCKED. -/
theorem fork_not_zombie {s : Sched} {cur : Task} (hcurT : s.currentTask = some cur)
    (hc : s.current = some cur.self) {frame : Frame} (hframe : frame.stack = cur.stackBase)
    (hw : WF (sysCall s frame .fork).1) :
    ¬(sysCall s frame .fork).1.currentZombie = true := by
  simp only [sysCall, forkTask, hcurT] at hw ⊢
  rw [if_neg (not_not.mpr hframe)] at hw ⊢
  simp only at hw ⊢
  rw [currentZombie_iff hw hc]
  rintro ⟨u, hu, hus, huz⟩
  simp only [Sched.setTask, List.mem_map] at hu
  obtain ⟨v, -, rfl⟩ := hu
  by_cases hv : v.self = cur.self
  · simp [hv] at huz
  · simp only [if_neg hv] at hus
    exact hv hus

/-- What a trap can do: an effect on the processes, then back to the current
task or on to the one `schedule` picks.  A fork always goes on when the new
pid is positive as an `int`, and only then. -/
theorem trap_cases {m m' : Machine} {t : Trap} {c : Nat} (h : WF m.sched)
    (hc : m.sched.current = some c)
    (hown : ∀ p ∈ m.sched.procs, p.self = c → p.state = .zombie → p.ppid ≠ p.pid)
    (hs : MachineStep m t m') :
    ∃ p ∈ m.sched.procs, p.self = c ∧ ∃ s, WF s ∧ s.current = some c ∧
      Effect m.sched.table p t.event s.table ∧
      (Dispatched s m'.sched m'.regs ∧ (t.event = .call .fork → int32 m.sched.nextPid > 0) ∨
        Resumed s m'.sched m'.regs ∧ t.event ≠ .tick ∧
          (t.event = .call .fork → ¬int32 m.sched.nextPid > 0)) := by
  obtain ⟨cur, hcur, hcurT, hself, htss⟩ := h.current_found hc
  have hmem : cur.toProc ∈ m.sched.procs := List.mem_map_of_mem hcur
  have hself' : m.sched.current = some cur.self := by rw [hc, hself]
  have hown' : cur.state = .zombie → cur.ppid ≠ cur.pid := hown _ hmem hself
  obtain ⟨-, hret⟩ := hs
  refine ⟨cur.toProc, hmem, hself, ?_⟩
  generalize hframe : (⟨m.sched.tss, t.eip, t.eax⟩ : Frame) = frame at hret
  have hfs : frame.stack = m.sched.tss := by rw [← hframe]
  have hno : ∀ s : Sched, s.current = some c → s.current = none →
      ∀ t ∈ s.ring, t.state = .running := by
    intro s h₁ h₂
    rw [h₁] at h₂
    cases h₂
  cases he : t.event with
  | tick =>
      rw [he] at hret
      simp only [isrCommonHandler, Exec.ret.injEq] at hret
      have hd := schedule_dispatched h hfs (hno _ hc)
      rw [hret] at hd
      exact ⟨m.sched, h, hc, .tick, Or.inl ⟨hd, by simp⟩⟩
  | call call =>
      rw [he] at hret
      simp only [isrCommonHandler, Exec.ret.injEq, syscallHandler] at hret
      obtain ⟨hw, hsc, hst, hfs', heff⟩ :=
        sysCall_effect h hcurT hself' hcur hown' (hfs.trans htss) call
      have hforkLive : call = .fork → ¬(sysCall m.sched frame call).1.currentZombie = true := by
        rintro rfl
        exact fork_not_zombie hcurT hself' (hfs.trans htss) hw
      have hforkRet : call = .fork → (sysCall m.sched frame call).2.2 = int32 m.sched.nextPid := by
        rintro rfl
        simp [sysCall, forkTask, hcurT, hfs, htss]
      have hleave := leaveCall_cases hw (hsc.trans hc) (hfs'.trans (hfs.trans hst.symm))
        (sysCall m.sched frame call).2.2 hforkLive
      rw [hret] at hleave
      refine ⟨_, hw, hsc.trans hc, heff, ?_⟩
      simp only [Event.call.injEq, ne_eq, reduceCtorEq, not_false_eq_true, true_and]
      rcases hleave with ⟨hd, hp⟩ | ⟨hr, hp⟩
      · exact Or.inl ⟨hd, fun hf => hforkRet hf ▸ hp hf⟩
      · exact Or.inr ⟨hr, fun hf => hforkRet hf ▸ hp hf⟩
  | fault =>
      rw [he] at hret
      obtain ⟨hw, hcu, hts, htb⟩ := taskExit_spec h hcurT (128 + 11)
      -- the state after `isr_handler`
      obtain ⟨s, hisr, hws, hsc, hst, heff⟩ : ∃ s, isrHandler m.sched = .ret s ∧ WF s ∧
          s.current = m.sched.current ∧ s.tss = m.sched.tss ∧
          Effect m.sched.table cur.toProc .fault s.table := by
        simp only [isrHandler, hcurT, h.user cur hcur, if_true]
        by_cases h0 : cur.ppid = 0
        · obtain ⟨hw', hcu', hts', htb'⟩ := respawn_spec hw
          rw [if_pos h0]
          exact ⟨_, rfl, hw', hcu'.trans hcu, hts'.trans hts, by
            rw [htb', htb]; exact .faultRoot h0⟩
        · rw [if_neg h0]
          exact ⟨_, rfl, hw, hcu, hts, by rw [htb]; exact .fault h0⟩
      simp only [isrCommonHandler, hisr, Exec.ret_bind] at hret
      refine ⟨s, hws, hsc.trans hc, heff, ?_⟩
      by_cases hz : s.currentZombie = true
      · rw [if_pos hz] at hret
        simp only [Exec.ret.injEq] at hret
        have hd := schedule_dispatched hws (hfs.trans hst.symm) (hno _ (hsc.trans hc))
        rw [hret] at hd
        exact Or.inl ⟨hd, by simp⟩
      · rw [if_neg hz] at hret
        simp only [Exec.ret.injEq, Prod.mk.injEq] at hret
        rw [← hret.1, ← hret.2]
        exact Or.inr ⟨resumed_of_not_zombie hws (hsc.trans hc) hz (hfs.trans hst.symm),
          by simp, by simp⟩

end LiteBSD
