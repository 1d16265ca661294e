/-
# `LiteBSD.Sched.RoundRobin` — everyone gets a turn

`schedule` goes round the ring from the task behind the current one and takes
the first that is RUNNING.  The task it takes is the current one of the next
call, so that the round of that call begins behind it.  Of the RUNNING tasks
alone, in the order in which the round meets them, one call takes the first and
makes it the last (`Turn.step`); hence as many calls as there are RUNNING tasks
take each of them once.
-/
import LiteBSD.Sched.ReadyQueue

namespace LiteBSD

open Lib

/-- The ready queue, `current_task`, and the stack of the task state segment. -/
structure Dispatcher extends ReadyQueue where
  current : Option Nat
  tss : Nat

namespace Dispatcher

def running (d : Dispatcher) (t : Nat) : Bool := (d.task t).state = .running

/-- `current_task->frame = frame` -/
def save (d : Dispatcher) (cur : Nat) (frame : Frame) : Dispatcher :=
  { d with task := Function.update d.task cur { d.task cur with frame := frame } }

def resume (d : Dispatcher) (next : Nat) : Dispatcher × Frame :=
  ({ d with current := some next, tss := (d.task next).stackBase }, (d.task next).frame)

def schedule (fuel : Nat) (d : Dispatcher) (frame : Frame) : Exec (Dispatcher × Frame) :=
  match d.readyQueue with
  | none => .ret (d, frame)
  | some last =>
      match d.current with
      | none => .ret (d.resume (d.next last))
      | some cur =>
          let d := d.save cur frame
          let start := d.next cur
          match doWhile d.next start (fun found next => if d.running next then (some next, true) else (found, false))
              fuel start none with
          | none => .hang
          | some found =>
              -- without a `break` the loop is left at its start
              let next := found.getD start
              let next := if d.running next = false ∧ d.running cur then cur else next
              .ret (d.resume next)

@[simp] theorem save_running (d : Dispatcher) (cur : Nat) (frame : Frame) : (d.save cur frame).running = d.running := by
  funext t
  by_cases ht : t = cur
  · simp [running, save, ht]
  · simp [running, save, ht]

theorem save_frame (d : Dispatcher) (cur t : Nat) (frame : Frame) :
    ((d.save cur frame).task t).frame = if t = cur then frame else (d.task t).frame := by
  by_cases ht : t = cur
  · simp [save, ht]
  · simp [save, ht]

/-! ## One call -/

/-- The current task, and the others in the order in which the round meets them. -/
structure Turn (d : Dispatcher) (cur : Nat) (others : List Nat) : Prop where
  nonempty : d.readyQueue ≠ none
  current : d.current = some cur
  circle : Circle d.next cur others

section Turn

variable {d : Dispatcher} {cur fuel : Nat} {l₁ l₂ others : List Nat}

/-- Wherever the current task is on the ring. -/
theorem turn_of_lists (h : d.Lists (l₁ ++ cur :: l₂)) (hcur : d.current = some cur) : Turn d cur (l₂ ++ l₁) := by
  generalize hl : l₁ ++ cur :: l₂ = l at h
  cases h with
  | empty _ => simp at hl
  | @ring last init hlast hc =>
      refine ⟨by simp [hlast], hcur, ?_⟩
      rcases l₂.eq_nil_or_concat with rfl | ⟨l₂, x, rfl⟩
      · obtain ⟨rfl, hx⟩ := List.append_inj' hl rfl
        cases hx
        exact hc
      · have hsplit : (l₁ ++ cur :: l₂) ++ [x] = init ++ [last] := by simpa using hl
        obtain ⟨rfl, hx⟩ := List.append_inj' hsplit rfl
        cases hx
        simpa using hc.rotate

/-- Were the current task RUNNING, the search had met it. -/
theorem find_running {p : Nat → Bool} (hcur : p cur = true) (start : Nat) :
    p (((others ++ [cur]).find? p).getD start) = true := by
  cases hfind : (others ++ [cur]).find? p with
  | none => exact absurd hcur (List.find?_eq_none.mp hfind cur (by simp))
  | some t => exact List.find?_some hfind

/-- The search of `schedule`; its fallback is never needed. -/
theorem Turn.schedule (h : Turn d cur others) (hfuel : others.length < fuel) (frame : Frame) :
    d.schedule fuel frame =
      .ret ((d.save cur frame).resume (((others ++ [cur]).find? d.running).getD (d.next cur))) := by
  obtain ⟨last, hlast⟩ := Option.ne_none_iff_exists'.mp h.nonempty
  have hcircle : Circle (d.save cur frame).next cur others := h.circle
  have hloop := hcircle.doWhile (fun found t => if d.running t then (some t, true) else (found, false)) none hfuel
  rw [foldBreak_find] at hloop
  unfold Dispatcher.schedule
  rw [hlast, h.current]
  simp only [save_running]
  rw [hloop]
  refine congrArg (fun next => Exec.ret ((d.save cur frame).resume next)) (if_neg fun hfallback => ?_)
  exact Bool.false_ne_true (hfallback.1.symm.trans (find_running hfallback.2 _))

end Turn

/-! ## Calls in a row -/

/-- A trap: what became of the tasks since the last one, and the frame it pushed. -/
structure Tick where
  meanwhile : Nat → Task → Task
  frame : Frame

/-- No task changed its state or its saved frame. -/
def Tick.Keeps (k : Tick) : Prop := ∀ a t, (k.meanwhile a t).state = t.state ∧ (k.meanwhile a t).frame = t.frame

def tick (fuel : Nat) (d : Dispatcher) (k : Tick) : Exec (Dispatcher × Frame) :=
  schedule fuel { d with task := fun a => k.meanwhile a (d.task a) } k.frame

/-- Who was selected, and the frame that was returned, call by call. -/
def picks (fuel : Nat) (d : Dispatcher) : List Tick → Exec (Dispatcher × List (Option Nat × Frame))
  | [] => .ret (d, [])
  | k :: ticks => do
      let (d, frame) ← d.tick fuel k
      let (d', rest) ← d.picks fuel ticks
      return (d', (d.current, frame) :: rest)

section Runs

variable {d : Dispatcher} {cur fuel : Nat} {l₁ l₂ others : List Nat}

/-- What the others find when the current task was switched out with `frame`. -/
structure Switched (d : Dispatcher) (cur : Nat) (frame : Frame) (d' : Dispatcher) : Prop where
  running : d'.running = d.running
  frames : ∀ t, (d'.task t).frame = if t = cur then frame else (d.task t).frame

/-- The first RUNNING task of the round is selected, and is the last of the
next round. -/
theorem Turn.step {c : Nat} {R : List Nat} (h : Turn d cur others) (hfuel : others.length < fuel)
    (hR : (others ++ [cur]).filter d.running = c :: R) {k : Tick} (hk : k.Keeps) :
    ∃ d' others', d.tick fuel k = .ret (d', if c = cur then k.frame else (d.task c).frame) ∧ Turn d' c others' ∧
      others'.length = others.length ∧ (others' ++ [c]).filter d'.running = R ++ [c] ∧ Switched d cur k.frame d' := by
  obtain ⟨a, b, hsplit, ha, hc, hb⟩ := List.filter_eq_cons_iff.mp hR
  have hnone : a.filter d.running = [] := List.filter_eq_nil_iff.mpr ha
  let e : Dispatcher := { d with task := fun a => k.meanwhile a (d.task a) }
  have hrunning : e.running = d.running := by
    funext t
    simp [e, running, (hk t (d.task t)).1]
  have hframe : ∀ t, (e.task t).frame = (d.task t).frame := fun t => (hk t (d.task t)).2
  have hturn : Turn e cur others := ⟨h.nonempty, h.current, h.circle⟩
  have hfind : (others ++ [cur]).find? e.running = some c := by
    rw [hrunning, ← List.head?_filter, hR]
    rfl
  have hstep := hturn.schedule hfuel k.frame
  rw [hfind, Option.getD_some] at hstep
  have hswitched : Switched d cur k.frame ((e.save cur k.frame).resume c).1 := by
    refine ⟨(save_running e cur k.frame).trans hrunning, fun t => ?_⟩
    rw [← hframe t]
    exact save_frame e cur t k.frame
  have hreturned : ((e.save cur k.frame).resume c).2 = if c = cur then k.frame else (d.task c).frame := by
    rw [← hframe c]
    exact save_frame e cur c k.frame
  -- the round begins behind the selected task
  have hnext : ∃ others', Circle d.next c others' ∧ others'.length = others.length ∧
      (others' ++ [c]).filter d.running = R ++ [c] := by
    rcases b.eq_nil_or_concat with rfl | ⟨b, x, rfl⟩
    · obtain ⟨rfl, hcur⟩ := List.append_inj' hsplit rfl
      cases hcur
      refine ⟨others, h.circle, rfl, ?_⟩
      rw [List.filter_append, hnone, ← hb]
      simp [hc]
    · have hsplit' : others ++ [cur] = (a ++ c :: b) ++ [x] := by simpa using hsplit
      obtain ⟨rfl, hcur⟩ := List.append_inj' hsplit' rfl
      cases hcur
      refine ⟨b ++ cur :: a, h.circle.rotate, by simp; omega, ?_⟩
      rw [← hb, List.concat_eq_append, List.filter_append, List.filter_append, List.filter_cons]
      by_cases hcur : d.running cur = true
      · simp [hcur, hnone, hc]
      · simp [hcur, hnone, hc]
  obtain ⟨others', hcircle, hlen, hrest⟩ := hnext
  refine ⟨((e.save cur k.frame).resume c).1, others', ?_, ⟨h.nonempty, rfl, hcircle⟩, hlen, ?_, hswitched⟩
  · rw [← hreturned]
    exact hstep
  · rw [hswitched.running]
    exact hrest

theorem picks_cons {d₁ d' : Dispatcher} {k : Tick} {ticks : List Tick} {c : Nat} {frame : Frame}
    {p : List (Option Nat × Frame)} (hstep : d.tick fuel k = .ret (d₁, frame)) (hcur : d₁.current = some c)
    (hrest : d₁.picks fuel ticks = .ret (d', p)) : d.picks fuel (k :: ticks) = .ret (d', (some c, frame) :: p) := by
  rw [Dispatcher.picks, hstep, Exec.ret_bind]
  dsimp only
  rw [hrest, Exec.ret_bind, hcur]
  rfl

/-- As many calls as there are RUNNING tasks, or fewer. -/
theorem Turn.picks {ticks : List Tick} (h : Turn d cur others) (hfuel : others.length < fuel)
    (hrun : (others ++ [cur]).filter d.running ≠ []) (hk : ∀ k ∈ ticks, k.Keeps) :
    ∃ d' p cur' others', d.picks fuel ticks = .ret (d', p) ∧ Turn d' cur' others' ∧ others'.length = others.length ∧
      ((others' ++ [cur']).filter d'.running).Perm ((others ++ [cur]).filter d.running) ∧
      (ticks.length ≤ ((others ++ [cur]).filter d.running).length →
        p.map Prod.fst = (((others ++ [cur]).filter d.running).take ticks.length).map some) := by
  induction ticks generalizing d cur others with
  | nil => exact ⟨d, [], cur, others, rfl, h, rfl, .refl _, fun _ => rfl⟩
  | cons k ticks ih =>
      obtain ⟨c, R, hR⟩ := List.exists_cons_of_ne_nil hrun
      obtain ⟨d₁, others₁, hstep, hturn, hlen, hR₁, -⟩ := h.step hfuel hR (hk k List.mem_cons_self)
      obtain ⟨d', p, cur', others', hrest, hturn', hlen', hperm, htake⟩ :=
        ih hturn (hlen ▸ hfuel) (by simp [hR₁]) fun k hmem => hk k (List.mem_cons_of_mem _ hmem)
      rw [hR₁] at hperm htake
      rw [hR]
      refine ⟨d', _, cur', others', picks_cons hstep hturn.current hrest, hturn', hlen'.trans hlen,
        hperm.trans (List.perm_append_singleton c R), fun hle => ?_⟩
      rw [List.length_cons, List.length_cons, Nat.add_le_add_iff_right] at hle
      rw [List.map_cons, htake (by simp; omega), List.take_append_of_le_length hle, List.length_cons,
        List.take_succ_cons, List.map_cons]

/-- The first of the calls, and the others. -/
theorem Turn.uncons {ticks : List Tick} {k : Tick} {d' : Dispatcher} {p : List (Option Nat × Frame)}
    (h : Turn d cur others) (hfuel : others.length < fuel) (hrun : (others ++ [cur]).filter d.running ≠ [])
    (hk : ∀ k' ∈ k :: ticks, k'.Keeps) (hp : d.picks fuel (k :: ticks) = .ret (d', p)) :
    ∃ c d₁ others₁ rest, p = (some c, if c = cur then k.frame else (d.task c).frame) :: rest ∧
      d₁.picks fuel ticks = .ret (d', rest) ∧ Turn d₁ c others₁ ∧ others₁.length = others.length ∧
      (others₁ ++ [c]).filter d₁.running ≠ [] ∧ Switched d cur k.frame d₁ := by
  obtain ⟨c, R, hR⟩ := List.exists_cons_of_ne_nil hrun
  obtain ⟨d₁, others₁, hstep, hturn, hlen, hR₁, hsw⟩ := h.step hfuel hR (hk k List.mem_cons_self)
  have hrun₁ : (others₁ ++ [c]).filter d₁.running ≠ [] := by simp [hR₁]
  obtain ⟨d₂, rest, -, -, hrest, -⟩ :=
    hturn.picks (hlen ▸ hfuel) hrun₁ fun k' hmem => hk k' (List.mem_cons_of_mem _ hmem)
  rw [picks_cons hstep hturn.current hrest] at hp
  injection hp with hp
  injection hp with hd hp
  subst hd
  exact ⟨c, d₁, others₁, rest, hp.symm, hrest, hturn, hlen, hrun₁, hsw⟩

/-- The frame that a task gets when it is selected for the first time. -/
theorem Turn.first {ticks : List Tick} {d' : Dispatcher} {pre post : List (Option Nat × Frame)} {c : Nat} {frame : Frame}
    (h : Turn d cur others) (hfuel : others.length < fuel) (hrun : (others ++ [cur]).filter d.running ≠ [])
    (hk : ∀ k ∈ ticks, k.Keeps) (hp : d.picks fuel ticks = .ret (d', pre ++ (some c, frame) :: post))
    (hpre : some c ∉ pre.map Prod.fst) :
    some frame = if c = cur then ticks.head?.map (fun k => k.frame) else some (d.task c).frame := by
  induction ticks generalizing d cur others pre with
  | nil =>
      rw [Dispatcher.picks, Exec.ret.injEq, Prod.mk.injEq] at hp
      simp at hp
  | cons k ticks ih =>
      obtain ⟨c₁, d₁, others₁, rest, hlist, hrest, hturn, hlen, hrun₁, hsw⟩ := h.uncons hfuel hrun hk hp
      cases pre with
      | nil =>
          injection hlist with hpick
          injection hpick with hc hframe
          rw [Option.some.injEq] at hc
          subst hc hframe
          by_cases hcur : c = cur
          · simp [hcur]
          · simp [hcur]
      | cons pick pre =>
          injection hlist with hpick hlist
          subst hpick hlist
          rw [List.map_cons, List.mem_cons, not_or] at hpre
          have hother : c ≠ c₁ := fun he => hpre.1 (congrArg some he)
          have hfirst := ih hturn (hlen ▸ hfuel) hrun₁ (fun k hmem => hk k (List.mem_cons_of_mem _ hmem)) hrest hpre.2
          rw [if_neg hother, hsw.frames] at hfirst
          rw [hfirst]
          by_cases hcur : c = cur
          · simp [hcur]
          · simp [hcur]

/-- The frame that a task gets when it is selected again: the one with which
the call after its last selection switched it out. -/
theorem Turn.again {ticks : List Tick} {d' : Dispatcher} {pre mid post : List (Option Nat × Frame)} {c : Nat}
    {frame frame' : Frame} (h : Turn d cur others) (hfuel : others.length < fuel)
    (hrun : (others ++ [cur]).filter d.running ≠ []) (hk : ∀ k ∈ ticks, k.Keeps)
    (hp : d.picks fuel ticks = .ret (d', pre ++ (some c, frame) :: (mid ++ (some c, frame') :: post)))
    (hmid : some c ∉ mid.map Prod.fst) : some frame' = (ticks[pre.length + 1]?).map fun k => k.frame := by
  induction ticks generalizing d cur others pre with
  | nil =>
      rw [Dispatcher.picks, Exec.ret.injEq, Prod.mk.injEq] at hp
      simp at hp
  | cons k ticks ih =>
      have hk' : ∀ k ∈ ticks, k.Keeps := fun k hmem => hk k (List.mem_cons_of_mem _ hmem)
      obtain ⟨c₁, d₁, others₁, rest, hlist, hrest, hturn, hlen, hrun₁, -⟩ := h.uncons hfuel hrun hk hp
      cases pre with
      | nil =>
          injection hlist with hpick hlist
          injection hpick with hc
          rw [Option.some.injEq] at hc
          subst hc hlist
          have hfirst := hturn.first (hlen ▸ hfuel) hrun₁ hk' hrest hmid
          rw [if_pos rfl] at hfirst
          simpa [List.head?_eq_getElem?] using hfirst
      | cons pick pre =>
          injection hlist with hpick hlist
          subst hlist
          simpa using ih hturn (hlen ▸ hfuel) hrun₁ hk' hrest

/-- With `current_task` anywhere on the ring and any task RUNNING: `schedule`
selects the first RUNNING task behind the current one.  While the ring, the
states and the saved frames are left alone, any calls in a row that are as many
as the RUNNING tasks select each of them once, and a task that is selected gets
the frame that it was last switched out with. -/
theorem schedule_round_robin (h : d.Lists (l₁ ++ cur :: l₂)) (hcur : d.current = some cur)
    (hrun : ∃ t ∈ l₁ ++ cur :: l₂, (d.task t).state = .running) (hfuel : (l₁ ++ cur :: l₂).length ≤ fuel) :
    (∀ frame, ∃ d' returned, d.schedule fuel frame = .ret (d', returned) ∧
      d'.current = (l₂ ++ l₁ ++ [cur]).find? fun t => (d.task t).state = .running) ∧
    (∀ before ticks, (∀ k ∈ before ++ ticks, k.Keeps) →
      ticks.length = ((l₁ ++ cur :: l₂).filter fun t => (d.task t).state = .running).length →
      ∃ d₁ p₁ d₂ p₂, d.picks fuel before = .ret (d₁, p₁) ∧ d₁.picks fuel ticks = .ret (d₂, p₂) ∧
        (p₂.map Prod.fst).Perm (((l₁ ++ cur :: l₂).filter fun t => (d.task t).state = .running).map some)) ∧
    ∀ ticks d' p, (∀ k ∈ ticks, k.Keeps) → d.picks fuel ticks = .ret (d', p) →
      (∀ pre c frame post, p = pre ++ (some c, frame) :: post → some c ∉ pre.map Prod.fst →
        some frame = if c = cur then ticks.head?.map (fun k => k.frame) else some (d.task c).frame) ∧
      ∀ pre c frame mid frame' post, p = pre ++ (some c, frame) :: (mid ++ (some c, frame') :: post) →
        some c ∉ mid.map Prod.fst → some frame' = (ticks[pre.length + 1]?).map fun k => k.frame := by
  have hturn := turn_of_lists h hcur
  have hroom : (l₂ ++ l₁).length < fuel := by
    simp only [List.length_append, List.length_cons] at hfuel ⊢
    omega
  have hperm : (l₂ ++ l₁ ++ [cur]).Perm (l₁ ++ cur :: l₂) := by
    have hcomm : (l₂ ++ (l₁ ++ [cur])).Perm ((l₁ ++ [cur]) ++ l₂) := List.perm_append_comm
    simpa using hcomm
  have hsome : (l₂ ++ l₁ ++ [cur]).filter d.running ≠ [] := by
    obtain ⟨t, ht, hstate⟩ := hrun
    exact List.ne_nil_of_mem (List.mem_filter.mpr ⟨hperm.mem_iff.mpr ht, by simpa [running] using hstate⟩)
  refine ⟨fun frame => ?_, fun before ticks hk hlen => ?_, fun ticks d' p hk hp => ⟨?_, ?_⟩⟩
  · refine ⟨_, _, hturn.schedule hroom frame, ?_⟩
    obtain ⟨c, hc⟩ := Option.ne_none_iff_exists'.mp fun hnone : (l₂ ++ l₁ ++ [cur]).find? d.running = none =>
      hsome (List.filter_eq_nil_iff.mpr (List.find?_eq_none.mp hnone))
    show some _ = List.find? d.running _
    rw [hc]
    rfl
  · obtain ⟨d₁, p₁, cur₁, others₁, hbefore, hturn₁, hlen₁, hperm₁, -⟩ :=
      hturn.picks hroom hsome fun k hmem => hk k (List.mem_append_left _ hmem)
    have hsome₁ : (others₁ ++ [cur₁]).filter d₁.running ≠ [] := fun hnil => by
      rw [hnil, List.nil_perm] at hperm₁
      exact hsome hperm₁
    obtain ⟨d₂, p₂, -, -, hticks, -, -, -, htake⟩ :=
      hturn₁.picks (hlen₁ ▸ hroom) hsome₁ fun k hmem => hk k (List.mem_append_right _ hmem)
    have hall : ((others₁ ++ [cur₁]).filter d₁.running).Perm ((l₁ ++ cur :: l₂).filter d.running) :=
      hperm₁.trans (hperm.filter _)
    refine ⟨d₁, p₁, d₂, p₂, hbefore, hticks, ?_⟩
    rw [htake (Nat.le_of_eq (hlen.trans hall.length_eq.symm)),
      List.take_of_length_le (Nat.le_of_eq (hall.length_eq.trans hlen.symm))]
    exact hall.map some
  · rintro pre c frame post rfl hpre
    exact hturn.first hroom hsome hk hp hpre
  · rintro pre c frame mid frame' post rfl hmid
    exact hturn.again hroom hsome hk hp hmid

/-- Three tasks, one of them waiting; the one in the middle is current. -/
def threeTasks : Dispatcher where
  readyQueue := some 24
  next := fun t => if t = 24 then 8 else t + 8
  task := fun t => ⟨⟨t, t, 0, if t = 24 then .blocked else .running⟩, ⟨t, 0, 0⟩, t, true, 0⟩
  current := some 16
  tss := 16

def quiet : Tick := ⟨fun _ t => t, ⟨16, 1, 1⟩⟩

/-- The one behind it waits, and the first one is next; then each of the two that
run has its turn. -/
theorem threeTasks_take_turns :
    (∃ d' returned, threeTasks.schedule 3 ⟨16, 1, 1⟩ = .ret (d', returned) ∧ d'.current = some 8) ∧
    (∃ d₁ p₁ d₂ p₂, threeTasks.picks 3 [quiet] = .ret (d₁, p₁) ∧ d₁.picks 3 [quiet, quiet] = .ret (d₂, p₂) ∧
      (p₂.map Prod.fst).Perm [some 8, some 16]) ∧
    ∀ d' frame, threeTasks.picks 3 [quiet] = .ret (d', [(some 8, frame)]) → frame = ⟨8, 0, 0⟩ := by
  have hlists : threeTasks.Lists ([8] ++ 16 :: [24]) :=
    .ring rfl (show Circle threeTasks.next 24 [8, 16] from ⟨⟨rfl, rfl, rfl⟩, by decide⟩)
  have hquiet : ∀ n, ∀ k ∈ List.replicate n quiet, k.Keeps := fun n k hk => by
    rw [(List.mem_replicate.mp hk).2]
    exact fun _ _ => ⟨rfl, rfl⟩
  obtain ⟨hnext, hround, hframes⟩ :=
    schedule_round_robin hlists rfl ⟨8, by decide, by decide⟩ (show 3 ≤ 3 from Nat.le_refl 3)
  refine ⟨hnext ⟨16, 1, 1⟩, hround [quiet] [quiet, quiet] (hquiet 3) (by decide), fun d' frame hp => ?_⟩
  have hfirst := (hframes [quiet] d' _ (hquiet 1) hp).1 [] 8 frame [] rfl (by decide)
  exact Option.some.inj hfirst

end Runs

/-! ## The list of the tasks -/

/-- The scheduler over the list of its tasks. -/
structure Represents (d : Dispatcher) (s : Sched) : Prop where
  queue : d.toReadyQueue.Represents s
  current : d.current = s.current
  tss : d.tss = s.tss

section Represents

variable {d : Dispatcher} {s : Sched} {cur fuel : Nat} {frame : Frame} {l₁ l₂ : List Nat}

theorem scan_eq (start : Task) (l : List Task) :
    scan start l = (l.find? fun t => t.state = .running).getD start := by
  induction l with
  | nil => rfl
  | cons t l ih =>
      rw [scan, List.find?_cons]
      by_cases ht : t.state = .running
      · simp [ht]
      · simpa [ht] using ih

theorem after_split {a b : List Task} {t : Task} (hring : s.ring = a ++ t :: b) (ha : ∀ x ∈ a, x.self ≠ t.self) :
    s.after t.self = b ++ a ++ [t] := by
  have hdrop : s.ring.dropWhile (fun x => x.self ≠ t.self) = t :: b := by
    rw [hring, List.dropWhile_append_of_pos (by simpa using ha)]
    simp
  have htake : s.ring.takeWhile (fun x => x.self ≠ t.self) = a := by
    rw [hring, List.takeWhile_append_of_pos (by simpa using ha)]
    simp
  rw [Sched.after, hdrop, htake]
  simp

theorem save_ring {l : List Nat} (hring : s.ring = l.map d.task) (hselfs : ∀ a ∈ l, (d.task a).self = a) (cur : Nat)
    (frame : Frame) :
    (s.setTask cur fun t => { t with frame := frame }).ring = l.map (d.save cur frame).task ∧
      ∀ a ∈ l, ((d.save cur frame).task a).self = a := by
  have htask : ∀ a ∈ l, (d.save cur frame).task a =
      if (d.task a).self = cur then { d.task a with frame := frame } else d.task a := by
    intro a ha
    rw [hselfs a ha]
    by_cases hcur : a = cur
    · simp [Dispatcher.save, hcur]
    · simp [Dispatcher.save, hcur]
  refine ⟨?_, fun a ha => ?_⟩
  · rw [Sched.setTask, hring, List.map_map]
    exact List.map_congr_left fun a ha => (htask a ha).symm
  · rw [htask a ha]
    split
    · exact hselfs a ha
    · exact hselfs a ha

/-- What the list shows of the current task, once its frame is saved. -/
theorem saved_list (hnodup : (l₁ ++ cur :: l₂).Nodup) (hring : s.ring = (l₁ ++ cur :: l₂).map d.task)
    (hselfs : ∀ a ∈ l₁ ++ cur :: l₂, (d.task a).self = a) (hcur : s.current = some cur) (frame : Frame) :
    (s.setTask cur fun t => { t with frame := frame }).after cur = (l₂ ++ l₁ ++ [cur]).map (d.save cur frame).task ∧
      (s.setTask cur fun t => { t with frame := frame }).currentTask = some ((d.save cur frame).task cur) := by
  obtain ⟨hring', hselfs'⟩ := save_ring hring hselfs cur frame
  have hself := hselfs' cur (List.mem_append_right _ List.mem_cons_self)
  have hother : ∀ x ∈ l₁.map (d.save cur frame).task, x.self ≠ cur := by
    intro x hx
    obtain ⟨b, hb, rfl⟩ := List.mem_map.mp hx
    rw [hselfs' b (List.mem_append_left _ hb)]
    exact fun he => List.disjoint_of_nodup_append hnodup hb (he ▸ List.mem_cons_self)
  rw [List.map_append, List.map_cons] at hring'
  constructor
  · have hsplit := after_split (t := (d.save cur frame).task cur) hring' (by rwa [hself])
    rw [hself] at hsplit
    rw [hsplit, List.map_append, List.map_append]
    rfl
  · have hstill : (s.setTask cur fun t => { t with frame := frame }).current = some cur := hcur
    rw [Sched.currentTask, hstill, Option.bind_some, hring', List.find?_append,
      List.find?_eq_none.mpr (by simpa using hother)]
    simp [hself]

theorem running_saved (t : Nat) : ((d.save cur frame).task t).state = .running ↔ d.running t = true := by
  rw [← save_running d cur frame]
  simp [running]

theorem scan_saved (start : Nat) (l : List Nat) :
    scan ((d.save cur frame).task start) (l.map (d.save cur frame).task) =
      (d.save cur frame).task ((l.find? d.running).getD start) := by
  rw [scan_eq, List.find?_map, Option.getD_map, ← save_running d cur frame]
  rfl

theorem Turn.picked_mem {others : List Nat} (h : Turn d cur others) :
    ((others ++ [cur]).find? d.running).getD (d.next cur) ∈ others ++ [cur] := by
  cases hfind : (others ++ [cur]).find? d.running with
  | none =>
      obtain ⟨rest, hrest⟩ := h.circle.head
      rw [Option.getD_none, hrest]
      exact List.mem_cons_self
  | some t =>
      rw [Option.getD_some]
      exact List.mem_of_find?_eq_some hfind

/-- Without a current task, the first of the list runs. -/
theorem Represents.schedule_first (h : d.Represents s) (hc : s.current = none) (fuel : Nat) (frame : Frame) :
    ∃ d', d.schedule fuel frame = .ret (d', (LiteBSD.schedule s frame).2) ∧
      d'.Represents (LiteBSD.schedule s frame).1 := by
  obtain ⟨l, hl, hring, hselfs⟩ := id h.queue
  cases hl with
  | empty hnone =>
      refine ⟨d, ?_, ?_⟩
      · rw [Dispatcher.schedule, hnone, LiteBSD.schedule, hring]
        rfl
      · rw [LiteBSD.schedule, hring]
        exact h
  | @ring last init hlast hcircle =>
      obtain ⟨rest, hrest⟩ := hcircle.head
      have hfirst := hselfs _ (hrest ▸ List.mem_cons_self)
      have hsched : LiteBSD.schedule s frame =
          ({ s with current := some (d.task (d.next last)).self, tss := (d.task (d.next last)).stackBase },
            (d.task (d.next last)).frame) := by
        rw [LiteBSD.schedule, hc]
        simp only [hring, hrest, List.map_cons]
      refine ⟨(d.resume (d.next last)).1, ?_, ?_⟩
      · rw [Dispatcher.schedule, hlast, h.current, hc, hsched]
        rfl
      · rw [hsched]
        exact ⟨⟨_, .ring hlast hcircle, hring, hselfs⟩, congrArg some hfirst.symm, rfl⟩

/-- Behind a current task, the next that can run does. -/
theorem Represents.schedule_next (h : d.Represents s) (hc : s.current = some cur) (hmem : ∃ t ∈ s.ring, t.self = cur)
    (hfuel : s.ring.length ≤ fuel) (frame : Frame) :
    ∃ d', d.schedule fuel frame = .ret (d', (LiteBSD.schedule s frame).2) ∧
      d'.Represents (LiteBSD.schedule s frame).1 := by
  obtain ⟨l, hl, hring, hselfs⟩ := id h.queue
  obtain ⟨t, ht, hself⟩ := hmem
  obtain ⟨a, ha, rfl⟩ := List.mem_map.mp (hring ▸ ht)
  rw [hselfs a ha] at hself
  subst hself
  obtain ⟨l₁, l₂, rfl⟩ := List.append_of_mem ha
  have hturn := turn_of_lists hl (h.current.trans hc)
  have hroom : (l₂ ++ l₁).length < fuel := by
    rw [hring] at hfuel
    simp only [List.length_map, List.length_append, List.length_cons] at hfuel ⊢
    omega
  obtain ⟨hring', hselfs'⟩ := save_ring hring hselfs a frame
  obtain ⟨hafter, hcurrent⟩ := saved_list hl.nodup hring hselfs hc frame
  have hscan := @scan_saved d a frame (d.next a) (l₂ ++ l₁ ++ [a])
  have horder := hturn.picked_mem
  generalize hn : ((l₂ ++ l₁ ++ [a]).find? d.running).getD (d.next a) = n at hscan horder
  have hmem : n ∈ l₁ ++ a :: l₂ := by
    simp only [List.mem_append, List.mem_cons, List.not_mem_nil, or_false] at horder ⊢
    tauto
  -- If nothing can run, the current task cannot either.
  have hfallback : ¬(((d.save a frame).task n).state ≠ .running ∧ ((d.save a frame).task a).state = .running) := by
    rintro ⟨hother, hrunning⟩
    exact hother (running_saved n |>.mpr (hn ▸ find_running (running_saved a |>.mp hrunning) _))
  have hsched : LiteBSD.schedule s frame =
      ({ s.setTask a fun t => { t with frame := frame } with
          current := some n, tss := ((d.save a frame).task n).stackBase }, ((d.save a frame).task n).frame) := by
    obtain ⟨first, tail, hfirst⟩ := List.exists_cons_of_ne_nil (List.ne_nil_of_mem ht)
    obtain ⟨rest, hrest⟩ := hturn.circle.head
    rw [hrest, List.map_cons] at hafter hscan
    simp only [LiteBSD.schedule, hfirst, hc]
    rw [hafter, hcurrent]
    simp only [hscan, if_neg hfallback, hselfs' n hmem]
  refine ⟨((d.save a frame).resume n).1, ?_, ?_⟩
  · rw [hturn.schedule hroom, hn, hsched]
    rfl
  · rw [hsched]
    exact ⟨⟨l₁ ++ a :: l₂, hl.congr rfl rfl, hring', hselfs'⟩, rfl, rfl⟩

/-- The two schedulers select the same task and return the same frame. -/
theorem Represents.schedule (h : d.Represents s) (hcur : ∀ cur, s.current = some cur → ∃ t ∈ s.ring, t.self = cur)
    (hfuel : s.ring.length ≤ fuel) (frame : Frame) :
    ∃ d', d.schedule fuel frame = .ret (d', (LiteBSD.schedule s frame).2) ∧
      d'.Represents (LiteBSD.schedule s frame).1 := by
  cases hc : s.current with
  | none => exact h.schedule_first hc fuel frame
  | some cur => exact h.schedule_next hc (hcur cur hc) hfuel frame

end Represents

end Dispatcher

end LiteBSD
