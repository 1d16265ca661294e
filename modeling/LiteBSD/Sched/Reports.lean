/-
# `LiteBSD.Sched.Reports` — what `wait4` tells of a death

A task that dies keeps its code in `exit_code` until it is reaped, and `wait4`
reads it from there.  Between the two the zombie is on the ring for every other
call to find:

    exit, a fault                   of a zombie that was resumed: it dies again
    fork                            the same, and it is no zombie any more
    kill with a signal              of any zombie: it dies again, with another code

`sys_kill` does not ask whether its target is alive.  In runs in which none of
this happens to a zombie (`DiesAgain`) a report is what the task died with.
-/
import LiteBSD.Sched.Runner

namespace LiteBSD

open Lib

/-- `(exit_code & 0xff) << 8` -/
def waitStatus (exitCode : Int) : Int := exitCode % 256 * 256

/-- What `wait4` found out: the child, the task that waited, and the word that it
stores behind `status`. -/
structure Report where
  child : Task
  parent : Task
  status : Int

/-- `wait4` with its report. -/
def wait4Report (s : Sched) (pid options : Nat) : Sched × Int × Option Report :=
  match s.currentTask with
  | none => (s, -1, none)
  | some cur =>
      if ¬s.ring.any (waitsFor cur pid) then (s, -1, none)
      else
        match waitFound s cur pid with
        | some found => (removeTask s found.self, int32 found.pid, some ⟨found, cur, waitStatus found.exitCode⟩)
        | none => if options % 2 = 1 then (s, 0, none) else (s, -2, none)

theorem wait4Report_eq (s : Sched) (pid options : Nat) :
    ((wait4Report s pid options).1, (wait4Report s pid options).2.1) = wait4 s pid options := by
  unfold wait4Report wait4
  cases s.currentTask with
  | none => rfl
  | some cur =>
      dsimp only
      split
      · rfl
      · cases hfound : waitFound s cur pid with
        | some found => rfl
        | none =>
            dsimp only
            split <;> rfl

/-- The report of a trap. -/
def reported (m : Machine) (t : Trap) : Option Report :=
  match t.event with
  | .call (.wait4 pid options) => (wait4Report m.sched pid options).2.2
  | _ => none

/-- The task that a trap makes a zombie, or makes sleep. -/
def struck (m : Machine) (t : Trap) : Option Task :=
  match t.event with
  | .call (.exit _) => m.sched.currentTask
  | .call .fork => m.sched.currentTask
  | .call (.kill pid sig) => if sig = 0 then none else findTask m.sched pid
  | .fault => m.sched.currentTask
  | _ => none

/-- The trap strikes a zombie. -/
def DiesAgain (m : Machine) (t : Trap) : Prop := ∃ target, struck m t = some target ∧ target.state = .zombie

instance (m : Machine) (t : Trap) : Decidable (DiesAgain m t) :=
  decidable_of_iff ((struck m t).any fun target => target.state = .zombie) (by simp [DiesAgain, Option.any_eq_true])

/-! ## The history of a run -/

abbrev TakenStep := Machine × Trap × Machine

/-- The reports of a run, the latest first. -/
def reports (tr : List TakenStep) : List Report := tr.filterMap fun x => reported x.1 x.2.1

/-- The exit code of the zombie at this address. -/
def zombieCode (s : Sched) (a : Nat) : Option Int :=
  (s.ring.find? fun t => t.self = a ∧ t.state = .zombie).map fun t => t.exitCode

/-- The exit code with which the task was a zombie for the first time. -/
def firstDeath (a : Nat) : List TakenStep → Option Int
  | [] => none
  | (_, _, m') :: early => (firstDeath a early).or (zombieCode m'.sched a)

/-- Each death is reported once, to the parent, after it, and as it was. -/
structure Truthful (tr : List TakenStep) : Prop where
  once : ((reports tr).map fun r => r.child.self).Nodup
  told : ∀ late m t m' early r, tr = late ++ (m, t, m') :: early → reported m t = some r →
    (∃ pid options, t.event = .call (.wait4 pid options) ∧ (wait4 m.sched pid options).2 = int32 r.child.pid) ∧
      r.child ∈ m.sched.ring ∧ r.child.state = .zombie ∧ m.sched.currentTask = some r.parent ∧
      r.child.ppid = r.parent.pid ∧ ∃ c, firstDeath r.child.self early = some c ∧ r.status = waitStatus c

/-! ## What one trap does to the zombies -/

/-- The addresses of the tasks are distinct and come from the supply. -/
structure Distinct (s : Sched) : Prop where
  selfs : (s.ring.map fun t => t.self).Nodup
  old : ∀ t ∈ s.ring, t.self < s.nextObj

/-- A task of the ring of `s'` is new, or it was there; a zombie that was not
struck is as it was. -/
structure Evolved (struck : Option Nat) (s s' : Sched) : Prop where
  distinct : Distinct s'
  supply : s.nextObj ≤ s'.nextObj
  was : ∀ t' ∈ s'.ring, s.nextObj ≤ t'.self ∨ ∃ t ∈ s.ring, t.self = t'.self ∧
    (t.state = .zombie → struck ≠ some t.self → t'.state = .zombie ∧ t'.exitCode = t.exitCode)

section Evolved

variable {s s' : Sched} {struck : Option Nat}

theorem Distinct.refl (h : Distinct s) : Evolved struck s s :=
  ⟨h, Nat.le_refl _, fun t ht => Or.inr ⟨t, ht, rfl, fun hz _ => ⟨hz, rfl⟩⟩⟩

theorem Evolved.trans {s₁ s₂ s₃ : Sched} (h : Evolved struck s₁ s₂) (h' : Evolved struck s₂ s₃) :
    Evolved struck s₁ s₃ := by
  refine ⟨h'.distinct, Nat.le_trans h.supply h'.supply, fun t₃ ht₃ => ?_⟩
  rcases h'.was t₃ ht₃ with hnew | ⟨t₂, ht₂, hself₂, hkept₂⟩
  · exact Or.inl (Nat.le_trans h.supply hnew)
  · rcases h.was t₂ ht₂ with hnew | ⟨t₁, ht₁, hself₁, hkept₁⟩
    · exact Or.inl (hself₂ ▸ hnew)
    · refine Or.inr ⟨t₁, ht₁, hself₁.trans hself₂, fun hz hno => ?_⟩
      obtain ⟨hz₂, hcode₂⟩ := hkept₁ hz hno
      obtain ⟨hz₃, hcode₃⟩ := hkept₂ hz₂ (hself₁ ▸ hno)
      exact ⟨hz₃, hcode₃.trans hcode₂⟩

/-- A ring of the tasks that were there, or of some of them. -/
theorem Distinct.of_ring (h : Distinct s) {ring : List Task}
    (hselfs : (ring.map fun t => t.self).Sublist (s.ring.map fun t => t.self))
    (hkept : ∀ t' ∈ ring, ∃ t ∈ s.ring, t.self = t'.self ∧
      (t.state = .zombie → struck ≠ some t.self → t'.state = .zombie ∧ t'.exitCode = t.exitCode)) :
    Evolved struck s { s with ring := ring } := by
  refine ⟨⟨h.selfs.sublist hselfs, fun t ht => ?_⟩, Nat.le_refl _, fun t' ht' => Or.inr (hkept t' ht')⟩
  obtain ⟨u, hu, hself, -⟩ := hkept t ht
  exact hself ▸ h.old u hu

theorem Distinct.map (h : Distinct s) {g : Task → Task} (hself : ∀ t, (g t).self = t.self)
    (hkept : ∀ t, t.state = .zombie → struck ≠ some t.self → (g t).state = .zombie ∧ (g t).exitCode = t.exitCode) :
    Evolved struck s { s with ring := s.ring.map g } := by
  have hsame : (s.ring.map g).map (fun t => t.self) = s.ring.map fun t => t.self := by
    rw [List.map_map]
    exact List.map_congr_left fun t _ => hself t
  refine h.of_ring (hsame ▸ List.Sublist.refl _) fun t' ht' => ?_
  obtain ⟨t, ht, rfl⟩ := List.mem_map.mp ht'
  exact ⟨t, ht, (hself t).symm, hkept t⟩

/-- A store into the task that is struck. -/
theorem Distinct.strike (h : Distinct s) (a : Nat) {f : Task → Task} (hself : ∀ t, (f t).self = t.self) :
    Evolved (some a) s (s.setTask a f) := by
  refine h.map (fun t => ?_) fun t hz hno => ?_
  · split
    · exact hself t
    · rfl
  · rw [if_neg fun he => hno (congrArg some he.symm)]
    exact ⟨hz, rfl⟩

theorem Distinct.addTask (h : Distinct s) {task : Task} (hself : task.self = s.nextObj + 1) (pid : Nat) :
    Evolved struck s (addTask { s with nextPid := pid, nextObj := s.nextObj + 2 } task) := by
  refine ⟨⟨?_, fun t ht => ?_⟩, Nat.le_add_right _ 2, fun t ht => ?_⟩
  · show ((s.ring ++ [task]).map fun t => t.self).Nodup
    rw [List.map_append]
    refine h.selfs.append (List.nodup_singleton _) ?_
    rintro a ha hb
    obtain ⟨t, ht, rfl⟩ := List.mem_map.mp ha
    have hlt := h.old t ht
    rw [List.map_singleton, List.mem_singleton, hself] at hb
    omega
  · rcases List.mem_append.mp ht with ht | ht
    · exact Nat.lt_add_right 2 (h.old t ht)
    · rw [List.mem_singleton.mp ht, hself]
      exact Nat.lt_succ_self _
  · rcases List.mem_append.mp ht with ht | ht
    · exact Or.inr ⟨t, ht, rfl, fun hz _ => ⟨hz, rfl⟩⟩
    · rw [List.mem_singleton.mp ht, hself]
      exact Or.inl (Nat.le_succ _)

/-- Only a BLOCKED task is woken. -/
theorem Distinct.unblockParentOf (h : Distinct s) (child : Task) : Evolved struck s (unblockParentOf s child) := by
  unfold LiteBSD.unblockParentOf
  split
  · exact h.refl
  · have hall : List.Forall₂ (fun a b : Task => b.self = a.self) s.ring
        (updateFirst (fun t => t.pid = child.ppid ∧ t.state = .blocked) (fun t => { t with state := .running }) s.ring) := by
      refine updateFirst_forall₂ ?_ ?_ _
      · exact fun _ => rfl
      · exact fun _ => rfl
    have hsame := map_eq_of_forall₂ (fun _ _ he => he) hall
    refine h.of_ring (hsame ▸ List.Sublist.refl _) fun t' ht' => ?_
    rcases mem_updateFirst ht' with ht' | ⟨t, ht, hblocked, rfl⟩
    · exact ⟨t', ht', rfl, fun hz _ => ⟨hz, rfl⟩⟩
    · rw [decide_eq_true_eq] at hblocked
      exact ⟨t, ht, rfl, fun hz _ => absurd (hz.symm.trans hblocked.2) nofun⟩

theorem Distinct.taskExit (h : Distinct s) (status : Int) :
    Evolved (s.currentTask.map fun t => t.self) s (taskExit s status) := by
  unfold LiteBSD.taskExit
  cases s.currentTask with
  | none => exact h.refl
  | some cur =>
      have h₁ : Evolved (some cur.self) s
          (s.setTask cur.self fun t => { t with state := .zombie, exitCode := status }) :=
        h.strike cur.self fun _ => rfl
      have h₂ := h₁.trans (h₁.distinct.unblockParentOf cur)
      refine h₂.trans (h₂.distinct.map (fun t => ?_) fun t hz _ => ?_)
      · split <;> rfl
      · split <;> exact ⟨hz, rfl⟩

theorem Distinct.respawnUserShell (h : Distinct s) : Evolved struck s (respawnUserShell s) :=
  h.addTask rfl _

theorem Distinct.forkTask (h : Distinct s) (frame : Frame) :
    Evolved (s.currentTask.map fun t => t.self) s (forkTask s frame).1 := by
  unfold LiteBSD.forkTask
  cases s.currentTask with
  | none => exact h.refl
  | some cur =>
      dsimp only
      split
      · exact ⟨⟨h.selfs, fun t ht => Nat.lt_succ_of_lt (h.old t ht)⟩, Nat.le_succ _, h.refl.was⟩
      · have h₁ : Evolved (some cur.self) s (LiteBSD.addTask { s with nextPid := u32 (s.nextPid + 1)
                                                                      nextObj := s.nextObj + 2 }
            ⟨⟨s.nextObj + 1, s.nextPid, cur.pid, .running⟩, { frame with stack := s.nextObj, eax := 0 }, s.nextObj,
              cur.user, 0⟩) := h.addTask rfl _
        exact h₁.trans (h₁.distinct.strike cur.self fun _ => rfl)

theorem Distinct.wait4 (h : Distinct s) (pid options : Nat) : Evolved struck s (wait4 s pid options).1 := by
  unfold LiteBSD.wait4
  split
  · exact h.refl
  · split
    · exact h.refl
    · split
      · exact h.of_ring (List.filter_sublist.map _) fun t ht =>
          ⟨t, (List.mem_filter.mp ht).1, rfl, fun hz _ => ⟨hz, rfl⟩⟩
      · split <;> exact h.refl

/-- `schedule` stores a frame. -/
theorem Distinct.schedule (h : Distinct s) (frame : Frame) : Evolved struck s (schedule s frame).1 := by
  have hsave : ∀ cur, Evolved struck s (s.setTask cur fun t => { t with frame := frame }) := fun cur =>
    h.map (fun t => by split <;> rfl) fun t hz _ => by split <;> exact ⟨hz, rfl⟩
  unfold LiteBSD.schedule
  split
  · exact h.refl
  · split
    · exact h.refl.trans ⟨⟨h.selfs, h.old⟩, Nat.le_refl _, h.refl.was⟩
    · rename_i cur _
      obtain ⟨hdistinct, hsupply, hwas⟩ := hsave cur
      dsimp only
      split
      · exact ⟨⟨hdistinct.selfs, hdistinct.old⟩, hsupply, hwas⟩
      · exact ⟨hdistinct, hsupply, hwas⟩

theorem Distinct.leaveCall (h : Distinct s) (frame : Frame) (call : Call) (ret : Int) :
    Evolved struck s (leaveCall s frame call ret).1 := by
  unfold LiteBSD.leaveCall
  split
  · exact h.schedule _
  · split
    · exact h.schedule _
    · dsimp only
      split
      · exact h.schedule _
      · exact h.refl

theorem current_self {t : Task} (ht : t ∈ s.ring) (hself : some t.self = s.current) :
    s.currentTask.map (fun t => t.self) = some t.self := by
  have hsome : (s.ring.find? fun u => u.self = t.self).isSome := List.find?_isSome.mpr ⟨t, ht, by simp⟩
  obtain ⟨u, hu⟩ := Option.isSome_iff_exists.mp hsome
  have hus : u.self = t.self := by simpa using List.find?_some hu
  rw [Sched.currentTask, ← hself, Option.bind_some, hu, Option.map_some, hus]

/-- Only the target of the call is struck. -/
theorem Distinct.sysCall (h : Distinct s) (frame : Frame) (call : Call) {m : Machine} (hm : m.sched = s) {eip eax : Nat} :
    Evolved ((LiteBSD.struck m ⟨.call call, eip, eax⟩).map fun t => t.self) s (sysCall s frame call).1 := by
  subst hm
  cases call with
  | exit status =>
      have h₁ := h.taskExit (int32 status)
      simp only [LiteBSD.sysCall, sysExit]
      split
      · exact h₁.trans h₁.distinct.respawnUserShell
      · exact h₁
  | fork => exact h.forkTask frame
  | execve entry => cases entry <;> exact h.refl
  | wait4 pid options => exact h.wait4 pid options
  | kill pid sig =>
      simp only [LiteBSD.sysCall, sysKill, LiteBSD.struck]
      cases hfind : findTask m.sched pid with
      | none => exact h.refl
      | some target =>
          dsimp only
          by_cases hsig : sig = 0
          · rw [if_pos hsig, if_pos hsig]
            exact h.refl
          rw [if_neg hsig, if_neg hsig]
          split
          · rename_i hself
            have h₁ := h.taskExit (int32 (u32 (128 + sig)))
            rwa [current_self (List.mem_of_find?_eq_some hfind) hself] at h₁
          · exact h.strike target.self fun _ => rfl
  | other ret => exact h.refl

theorem Distinct.isrHandler (h : Distinct s) (hret : isrHandler s = .ret s') :
    Evolved (s.currentTask.map fun t => t.self) s s' := by
  have h₁ := h.taskExit (128 + 11)
  unfold LiteBSD.isrHandler at hret
  split at hret
  · cases hret
  · split at hret
    · dsimp only at hret
      split at hret
      · cases hret
        exact h₁.trans h₁.distinct.respawnUserShell
      · cases hret
        exact h₁
    · cases hret

/-- A trap changes no zombie but the one it strikes. -/
theorem Distinct.step {m m' : Machine} {t : Trap} (h : Distinct m.sched) (hs : MachineStep m t m') :
    Evolved ((LiteBSD.struck m t).map fun t => t.self) m.sched m'.sched := by
  obtain ⟨-, hret⟩ := hs
  obtain ⟨event, eip, eax⟩ := t
  cases event with
  | tick =>
      have h₁ : Evolved none m.sched (LiteBSD.schedule m.sched ⟨m.sched.tss, eip, eax⟩).1 := h.schedule _
      injection hret with hret
      rwa [hret] at h₁
  | call call =>
      have h₁ : Evolved ((LiteBSD.struck m ⟨.call call, eip, eax⟩).map fun t => t.self) m.sched
          (LiteBSD.sysCall m.sched ⟨m.sched.tss, eip, eax⟩ call).1 := h.sysCall _ call rfl
      have h₂ := h₁.trans (h₁.distinct.leaveCall (LiteBSD.sysCall m.sched ⟨m.sched.tss, eip, eax⟩ call).2.1 call
        (LiteBSD.sysCall m.sched ⟨m.sched.tss, eip, eax⟩ call).2.2)
      injection hret with hret
      have hsched : (syscallHandler m.sched ⟨m.sched.tss, eip, eax⟩ call).1 = m'.sched := congrArg Prod.fst hret
      rw [← hsched]
      exact h₂
  | fault =>
      obtain ⟨s, hisr, hret⟩ := Exec.bind_eq_ret.mp hret
      have h₁ := h.isrHandler hisr
      split at hret
      · have h₂ := h₁.trans (h₁.distinct.schedule ⟨m.sched.tss, eip, eax⟩)
        injection hret with hret
        rwa [hret] at h₂
      · injection hret with hret
        injection hret with hsched
        rwa [hsched] at h₁

end Evolved

/-! ## Along a run -/

/-- What the history of a run says about the ring at its end: the zombies are as
they were at their first death, and what was reported is not there. -/
structure Ledger (tr : List TakenStep) (s : Sched) : Prop where
  distinct : Distinct s
  gone : ∀ r ∈ reports tr, r.child.self < s.nextObj ∧ ∀ t ∈ s.ring, t.self ≠ r.child.self
  once : ((reports tr).map fun r => r.child.self).Nodup

/-- The zombies of the ring are as they were at their first death. -/
structure KeptStatus (tr : List TakenStep) (s : Sched) : Prop where
  zombie : ∀ t ∈ s.ring, t.state = .zombie → firstDeath t.self tr = some t.exitCode
  dead : ∀ a c, firstDeath a tr = some c → a < s.nextObj ∧
    ∀ t ∈ s.ring, t.self = a → t.state = .zombie ∧ t.exitCode = c

section Ledger

variable {m m' : Machine} {t : Trap} {tr : List TakenStep} {r : Report}

theorem zombieCode_eq {s : Sched} (h : Distinct s) {u : Task} (hu : u ∈ s.ring) (hz : u.state = .zombie) :
    zombieCode s u.self = some u.exitCode := by
  have hsome : (s.ring.find? fun t => t.self = u.self ∧ t.state = .zombie).isSome :=
    List.find?_isSome.mpr ⟨u, hu, by simp [hz]⟩
  obtain ⟨v, hv⟩ := Option.isSome_iff_exists.mp hsome
  have hvs : v.self = u.self := by
    have htest := List.find?_some hv
    rw [decide_eq_true_eq] at htest
    exact htest.1
  have hvu : v = u := List.inj_on_of_nodup_map h.selfs (List.mem_of_find?_eq_some hv) hu hvs
  rw [zombieCode, hv, hvu]
  rfl

theorem zombieCode_some {s : Sched} {a : Nat} {c : Int} (h : zombieCode s a = some c) :
    ∃ u ∈ s.ring, u.self = a ∧ u.state = .zombie ∧ u.exitCode = c := by
  obtain ⟨u, hu, hc⟩ := Option.map_eq_some_iff.mp h
  have htest := List.find?_some hu
  rw [decide_eq_true_eq] at htest
  exact ⟨u, List.mem_of_find?_eq_some hu, htest.1, htest.2, hc⟩

/-- A zombie that this trap does not strike is on the ring as before. -/
theorem Evolved.kept (h : Evolved ((struck m t).map fun t => t.self) m.sched m'.sched) (hm : Distinct m.sched)
    (hno : ¬DiesAgain m t) (hstruck : ∀ target, struck m t = some target → target ∈ m.sched.ring) {u' : Task}
    (hu' : u' ∈ m'.sched.ring) {u : Task} (hu : u ∈ m.sched.ring) (hself : u.self = u'.self) (hz : u.state = .zombie) :
    u'.state = .zombie ∧ u'.exitCode = u.exitCode := by
  rcases h.was u' hu' with hnew | ⟨v, hv, hvs, hkept⟩
  · have hold := hm.old u hu
    omega
  · obtain rfl : v = u := List.inj_on_of_nodup_map hm.selfs hv hu (hvs.trans hself.symm)
    refine hkept hz fun hhit => ?_
    obtain ⟨target, htarget, hts⟩ := Option.map_eq_some_iff.mp hhit
    have hsame : target = v := List.inj_on_of_nodup_map hm.selfs (hstruck target htarget) hv hts
    exact hno ⟨target, htarget, hsame ▸ hz⟩

theorem struck_mem {target : Task} (h : struck m t = some target) : target ∈ m.sched.ring := by
  have hcurrent : m.sched.currentTask = some target → target ∈ m.sched.ring := fun hc => by
    obtain ⟨c, -, hfind⟩ := Option.bind_eq_some_iff.mp hc
    exact List.mem_of_find?_eq_some hfind
  unfold struck at h
  split at h
  · exact hcurrent h
  · exact hcurrent h
  · split at h
    · cases h
    · exact List.mem_of_find?_eq_some h
  · exact hcurrent h
  · cases h

theorem KeptStatus.step (h : KeptStatus tr m.sched) (hm : Distinct m.sched) (hs : MachineStep m t m') (hno : ¬DiesAgain m t) :
    KeptStatus ((m, t, m') :: tr) m'.sched := by
  have hev := hm.step hs
  have hkept : ∀ {u' : Task}, u' ∈ m'.sched.ring → ∀ {u : Task}, u ∈ m.sched.ring → u.self = u'.self →
      u.state = .zombie → u'.state = .zombie ∧ u'.exitCode = u.exitCode :=
    hev.kept hm hno fun _ => struck_mem
  refine ⟨fun u' hu' hz => ?_, fun a c hc => ?_⟩
  · rw [firstDeath, zombieCode_eq hev.distinct hu' hz]
    cases hfirst : firstDeath u'.self tr with
    | none => rfl
    | some c =>
        obtain ⟨hold, hdead⟩ := h.dead _ _ hfirst
        rcases hev.was u' hu' with hnew | ⟨u, hu, hself, -⟩
        · omega
        · obtain ⟨huz, huc⟩ := hdead u hu hself
          rw [Option.some_or, ← huc, (hkept hu' hu hself huz).2]
  · rw [firstDeath] at hc
    cases hfirst : firstDeath a tr with
    | none =>
        rw [hfirst, Option.none_or] at hc
        obtain ⟨u, hu, rfl, hz, rfl⟩ := zombieCode_some hc
        refine ⟨hev.distinct.old u hu, fun v hv hself => ?_⟩
        obtain rfl : v = u := List.inj_on_of_nodup_map hev.distinct.selfs hv hu hself
        exact ⟨hz, rfl⟩
    | some c' =>
        rw [hfirst, Option.some_or, Option.some.injEq] at hc
        subst hc
        obtain ⟨hold, hdead⟩ := h.dead _ _ hfirst
        refine ⟨Nat.lt_of_lt_of_le hold hev.supply, fun u' hu' hself => ?_⟩
        rcases hev.was u' hu' with hnew | ⟨u, hu, hus, -⟩
        · omega
        · obtain ⟨huz, huc⟩ := hdead u hu (hus.trans hself)
          obtain ⟨hz, hcode⟩ := hkept hu' hu hus huz
          exact ⟨hz, hcode.trans huc⟩

/-- Where a report comes from. -/
theorem reported_spec (h : reported m t = some r) :
    (∃ pid options, t.event = .call (.wait4 pid options) ∧
      wait4 m.sched pid options = (removeTask m.sched r.child.self, int32 r.child.pid)) ∧
    r.child ∈ m.sched.ring ∧ r.child.state = .zombie ∧ m.sched.currentTask = some r.parent ∧
      r.child.ppid = r.parent.pid ∧ r.status = waitStatus r.child.exitCode := by
  unfold reported at h
  split at h
  · rename_i pid options hevent
    have hwait := wait4Report_eq m.sched pid options
    unfold wait4Report at h hwait
    cases hcur : m.sched.currentTask with
    | none => simp [hcur] at h
    | some cur =>
        rw [hcur] at h hwait
        dsimp only at h hwait
        split at h
        · cases h
        · rename_i hchild
          rw [if_neg hchild] at hwait
          cases hfound : waitFound m.sched cur pid with
          | none =>
              rw [hfound] at h
              dsimp only at h
              split at h <;> cases h
          | some found =>
              rw [hfound] at h hwait
              cases h
              have htest := List.find?_some hfound
              simp only [waitsFor, Bool.and_eq_true, decide_eq_true_eq] at htest
              exact ⟨⟨pid, options, hevent, hwait.symm⟩, List.mem_of_find?_eq_some hfound, htest.2, rfl, htest.1.1, rfl⟩
  · cases h

/-- The child is not on the ring any more. -/
theorem reported_gone (hm : Distinct m.sched) (hs : MachineStep m t m') (h : reported m t = some r) :
    ∀ u ∈ m'.sched.ring, u.self ≠ r.child.self := by
  obtain ⟨⟨pid, options, hevent, hwait⟩, hmem, -⟩ := reported_spec h
  obtain ⟨-, hret⟩ := hs
  rw [hevent] at hret
  injection hret with hret
  have hreaped : Evolved none m.sched (removeTask m.sched r.child.self) := by
    have h₁ : Evolved none m.sched (wait4 m.sched pid options).1 := hm.wait4 pid options
    rwa [hwait] at h₁
  have hleft : Evolved none (removeTask m.sched r.child.self) m'.sched := by
    have h₁ : Evolved none (removeTask m.sched r.child.self)
        (leaveCall (removeTask m.sched r.child.self) ⟨m.sched.tss, t.eip, t.eax⟩ (.wait4 pid options)
          (int32 r.child.pid)).1 := hreaped.distinct.leaveCall _ _ _
    have hcall : sysCall m.sched ⟨m.sched.tss, t.eip, t.eax⟩ (.wait4 pid options) =
        (removeTask m.sched r.child.self, ⟨m.sched.tss, t.eip, t.eax⟩, int32 r.child.pid) := by
      rw [sysCall, hwait]
    rw [syscallHandler, hcall] at hret
    have hsched := congrArg Prod.fst hret
    rwa [hsched] at h₁
  intro u' hu'
  rcases hleft.was u' hu' with hnew | ⟨u, hu, hself, -⟩
  · have hold := hm.old _ hmem
    exact Nat.ne_of_gt (Nat.lt_of_lt_of_le hold hnew)
  · rw [← hself]
    simpa using (List.mem_filter.mp hu).2

theorem Ledger.step (h : Ledger tr m.sched) (hs : MachineStep m t m') : Ledger ((m, t, m') :: tr) m'.sched := by
  have hev := h.distinct.step hs
  have hgone : ∀ r ∈ reports tr, r.child.self < m'.sched.nextObj ∧ ∀ u ∈ m'.sched.ring, u.self ≠ r.child.self := by
    intro r hr
    obtain ⟨hold, hnot⟩ := h.gone r hr
    refine ⟨Nat.lt_of_lt_of_le hold hev.supply, fun u' hu' => ?_⟩
    rcases hev.was u' hu' with hnew | ⟨u, hu, hself, -⟩
    · omega
    · exact hself ▸ hnot u hu
  cases hrep : reported m t with
  | none =>
      have hsame : reports ((m, t, m') :: tr) = reports tr := List.filterMap_cons_none hrep
      exact ⟨hev.distinct, hsame ▸ hgone, hsame ▸ h.once⟩
  | some r =>
      have hmore : reports ((m, t, m') :: tr) = r :: reports tr := List.filterMap_cons_some hrep
      obtain ⟨-, hmem, -⟩ := reported_spec hrep
      refine ⟨hev.distinct, ?_, ?_⟩
      · rw [hmore]
        exact List.forall_mem_cons.mpr
          ⟨⟨Nat.lt_of_lt_of_le (h.distinct.old _ hmem) hev.supply, reported_gone h.distinct hs hrep⟩, hgone⟩
      · rw [hmore, List.map_cons, List.nodup_cons]
        refine ⟨fun htwice => ?_, h.once⟩
        obtain ⟨r', hr', hself⟩ := List.mem_map.mp htwice
        exact (h.gone r' hr').2 r.child hmem hself.symm

theorem Ledger.boot (h : MachineBoot m) : Ledger [] m.sched := by
  obtain ⟨init, obj, -, hs, -⟩ := h
  refine ⟨?_, fun r hr => absurd hr List.not_mem_nil, List.nodup_nil⟩
  rw [hs]
  refine ⟨List.nodup_singleton _, fun t ht => ?_⟩
  rw [List.mem_singleton.mp ht]
  exact Nat.lt_succ_self _

theorem KeptStatus.boot (h : MachineBoot m) : KeptStatus [] m.sched := by
  obtain ⟨init, obj, -, hs, -⟩ := h
  refine ⟨fun t ht hz => ?_, nofun⟩
  rw [hs] at ht
  rw [List.mem_singleton.mp ht] at hz
  cases hz

/-- No task is ever reported twice. -/
theorem trace_ledger (htr : machineSystem.Trace tr m) : Ledger tr m.sched := by
  induction htr with
  | nil h => exact .boot h
  | snoc _ hs ih => exact ih.step hs

theorem trace_kept (htr : machineSystem.Trace tr m) (hno : ∀ x ∈ tr, ¬DiesAgain x.1 x.2.1) : KeptStatus tr m.sched := by
  induction htr with
  | nil h => exact .boot h
  | snoc htr hs ih =>
      obtain ⟨hlast, hearly⟩ := List.forall_mem_cons.mp hno
      exact (ih hearly).step (trace_ledger htr).distinct hs hlast

/-- In every run in which no trap strikes a zombie, each death is reported once
and truthfully. -/
theorem deaths_told (htr : machineSystem.Trace tr m) (hno : ∀ x ∈ tr, ¬DiesAgain x.1 x.2.1) : Truthful tr := by
  refine ⟨(trace_ledger htr).once, ?_⟩
  rintro late m₁ t₁ m₂ early r rfl hrep
  obtain ⟨⟨pid, options, hevent, hwait⟩, hmem, hz, hcur, hppid, hstatus⟩ := reported_spec hrep
  refine ⟨⟨pid, options, hevent, congrArg Prod.snd hwait⟩, hmem, hz, hcur, hppid, r.child.exitCode, ?_, hstatus⟩
  have hhere := htr.upTo
  cases hhere with
  | snoc hearly _ =>
      exact (trace_kept hearly fun x hx => hno x (List.mem_append_right _ (List.mem_cons_of_mem _ hx))).zombie _ hmem hz

/-- The shell has forked. -/
def forked : Machine := ⟨⟨[shellTask .blocked 0 2, childTask 2 3 .running 0], some 4, 3, 3, 0, 5⟩, ⟨3, 0, 0⟩⟩

/-- Its child is dead, and not reaped. -/
def childDead (code : Int) (eax : Nat) : Machine :=
  ⟨⟨[shellTask .running 0 2, { childTask 2 3 .zombie 3 with exitCode := code }], some 2, 3, 1, 0, 5⟩, ⟨1, 0, eax⟩⟩

def reaped (eax : Nat) : Machine := ⟨aloneAt 3 5 0 2, ⟨1, 0, eax⟩⟩

theorem forked_trace : machineSystem.Trace
    [(⟨aloneAt 2 3 0 0, ⟨1, 0, 0⟩⟩, ⟨.call .fork, 0, 5⟩, forked), (bootMachine, ⟨.tick, 0, 0⟩, ⟨aloneAt 2 3 0 0, ⟨1, 0, 0⟩⟩)]
    forked :=
  .snoc (.snoc (.nil bootMachine_boot) bootMachine_tick) ⟨.inr (by decide), by decide⟩

/-- A child that exits with `0x107`. -/
theorem exit_is_told : ∃ tr m, machineSystem.Trace tr m ∧ Truthful tr ∧
    (reports tr).map (fun r => (r.child.pid, r.parent.pid, r.status)) = [(2, 1, 1792)] := by
  have hexit : MachineStep forked ⟨.call (.exit 263), 0, 3⟩ (childDead 263 2) := ⟨.inr (by decide), by decide⟩
  have hwait : MachineStep (childDead 263 2) ⟨.call (.wait4 4294967295 0), 0, 7⟩ (reaped 2) :=
    ⟨.inr (by decide), by decide⟩
  have htrace : machineSystem.Trace _ _ := .snoc (.snoc forked_trace hexit) hwait
  exact ⟨_, _, htrace, deaths_told htrace (by decide), by decide⟩

/-- The child exits with 0, the parent sends it a signal, and `wait4` tells the
parent that the child died of the signal. -/
theorem signal_for_zombie : ∃ tr m, machineSystem.Trace tr m ∧ ¬Truthful tr := by
  have hexit : MachineStep forked ⟨.call (.exit 0), 0, 3⟩ (childDead 0 2) := ⟨.inr (by decide), by decide⟩
  have hkill : MachineStep (childDead 0 2) ⟨.call (.kill 2 9), 0, 8⟩ (childDead 137 0) := ⟨.inr (by decide), by decide⟩
  have hwait : MachineStep (childDead 137 0) ⟨.call (.wait4 4294967295 0), 0, 7⟩ (reaped 2) :=
    ⟨.inr (by decide), by decide⟩
  have htrace : machineSystem.Trace _ _ := .snoc (.snoc (.snoc forked_trace hexit) hkill) hwait
  refine ⟨_, _, htrace, fun htruth => ?_⟩
  obtain ⟨-, -, -, -, -, c, hfirst, hstatus⟩ := htruth.told [] _ _ _ _ _ rfl rfl
  have hc : some c = some (0 : Int) := hfirst.symm.trans (by decide)
  rw [Option.some.inj hc] at hstatus
  exact absurd hstatus (by decide)

end Ledger

end LiteBSD
