/-
# `LiteBSD.Sched.ReadyQueue` — the ring behind the ready queue

Elsewhere the ready queue is a list of tasks.  Here it is what it is in
memory: a pointer to the last task, and in each task a pointer to the next.
Every traversal in the kernel is one loop that ends when it is back at its
start, so that all of them rest on the ring being one (`Lists`).

    add_task of a task that is not queued    it is the last of the list
    remove_task of a member                  it goes from the list, the others stay in order
    remove_task of any other                 nothing changes
-/
import LiteBSD.Lib.Circle
import LiteBSD.Sched.Model

namespace LiteBSD

open Lib

/-- `ready_queue`, and the tasks by their addresses: the `next` of each, and
the rest of it. -/
structure ReadyQueue where
  readyQueue : Option Nat
  next : Nat → Nat
  task : Nat → Task

namespace ReadyQueue

def addTask (q : ReadyQueue) (task : Nat) : ReadyQueue :=
  match q.readyQueue with
  | none => { q with readyQueue := some task, next := Function.update q.next task task }
  | some last =>
      let next := Function.update q.next task (q.next last)
      { q with readyQueue := some task, next := Function.update next last task }

/-- The loop of `remove_task`: the task whose `next` is the target. -/
def findPrev (fuel : Nat) (q : ReadyQueue) (last target : Nat) : Option (Option Nat) :=
  doWhile q.next last (fun found prev => if q.next prev = target then (some prev, true) else (found, false)) fuel last
    none

def removeTask (fuel : Nat) (q : ReadyQueue) (target : Nat) : Exec ReadyQueue :=
  match q.readyQueue with
  | none => .ret q
  | some last =>
      if q.next last = last ∧ last = target then .ret { q with readyQueue := none }
      else
        match q.findPrev fuel last target with
        | none => .hang
        | some none => .ret q
        | some (some prev) =>
            .ret { q with
              readyQueue := some (if last = target then prev else last)
              next := Function.update q.next prev (q.next target) }

/-- A loop over the ring, from `ready_queue->next` on. -/
def traverse {σ : Type} (fuel : Nat) (q : ReadyQueue) (body : σ → Nat → σ × Bool) (s : σ) : Exec σ :=
  match q.readyQueue with
  | none => .ret s
  | some last =>
      match doWhile q.next (q.next last) body fuel (q.next last) s with
      | none => .hang
      | some s => .ret s

def schedTaskCount (fuel : Nat) (q : ReadyQueue) : Exec Nat :=
  q.traverse fuel (fun n _ => (n + 1, false)) 0

def findTask (fuel : Nat) (q : ReadyQueue) (pid : Nat) : Exec (Option Nat) :=
  q.traverse fuel (fun found t => if (q.task t).pid = pid then (some t, true) else (found, false)) none

/-- The loop of `wait4`: is there a child, and the zombie that is `found`. -/
def waitScan (fuel : Nat) (q : ReadyQueue) (cur : Task) (pid : Nat) : Exec (Bool × Option Nat) :=
  q.traverse fuel (fun s t =>
    if waitsFor cur pid (q.task t) then
      if (q.task t).state = .zombie then ((true, some t), true) else ((true, s.2), false)
    else (s, false)) (false, none)

/-! ## The list of the tasks -/

/-- The tasks of the ring, in its order. -/
inductive Lists (q : ReadyQueue) : List Nat → Prop
  | empty : q.readyQueue = none → Lists q []
  | ring {last : Nat} {init : List Nat} :
      q.readyQueue = some last → Circle q.next last init → Lists q (init ++ [last])

section Ring

variable {q : ReadyQueue} {l : List Nat} {a fuel : Nat}

theorem Lists.nodup (h : q.Lists l) : l.Nodup := by
  cases h with
  | empty _ => exact List.nodup_nil
  | ring _ hc => exact hc.nodup

/-- The tasks may change. -/
theorem Lists.congr {q' : ReadyQueue} (h : q.Lists l) (hlast : q'.readyQueue = q.readyQueue) (hnext : q'.next = q.next) :
    q'.Lists l := by
  cases h with
  | empty hnone => exact .empty (hlast.trans hnone)
  | ring hsome hc => exact .ring (hlast.trans hsome) (hnext ▸ hc)

theorem Lists.addTask (h : q.Lists l) (ha : a ∉ l) : (q.addTask a).Lists (l ++ [a]) := by
  unfold ReadyQueue.addTask
  cases h with
  | empty hnone =>
      rw [hnone]
      exact .ring rfl (show Circle _ a [] from .single _ _)
  | ring hlast hc =>
      rw [hlast]
      exact .ring rfl (hc.insert ha)

/-- A loop over the ring is one over the list. -/
theorem Lists.traverse {σ : Type} (h : q.Lists l) (hfuel : l.length ≤ fuel) (body : σ → Nat → σ × Bool) (s : σ) :
    q.traverse fuel body s = .ret (foldBreak body l s) := by
  unfold ReadyQueue.traverse
  cases h with
  | empty hnone =>
      rw [hnone]
      rfl
  | ring hlast hc =>
      rw [List.length_append] at hfuel
      rw [hlast]
      dsimp only
      rw [hc.doWhile body s hfuel]

theorem findPrev_eq {last : Nat} {init : List Nat} (hc : Circle q.next last init) (hfuel : init.length < fuel) :
    q.findPrev fuel last a = some ((last :: init).find? fun p => q.next p = a) := by
  have hloop := hc.doWhile_tail (fun found p => if decide (q.next p = a) then (some p, true) else (found, false)) none
    hfuel
  rw [foldBreak_find] at hloop
  rw [← hloop, findPrev]
  congr 1
  funext found p
  exact if_congr (by simp) rfl rfl

/-- `remove_task` takes out the target, and leaves alone what it is not on. -/
theorem Lists.removeTask (h : q.Lists l) (hfuel : l.length ≤ fuel) :
    ∃ q', q.removeTask fuel a = .ret q' ∧ q'.Lists (l.erase a) ∧ (a ∉ l → q' = q) ∧ q'.task = q.task := by
  unfold ReadyQueue.removeTask
  cases h with
  | empty hnone =>
      rw [hnone]
      exact ⟨q, rfl, .empty hnone, fun _ => rfl, rfl⟩
  | @ring last init hlast hc =>
      rw [List.length_append] at hfuel
      rw [hlast]
      dsimp only
      by_cases hone : q.next last = last ∧ last = a
      · -- the only task
        obtain ⟨hnext, rfl⟩ := hone
        have hnil := hc.eq_nil hnext
        subst hnil
        rw [if_pos ⟨hnext, rfl⟩]
        refine ⟨_, rfl, ?_, fun hno => absurd (List.mem_singleton_self _) hno, rfl⟩
        rw [List.nil_append, List.erase_cons_head]
        exact .empty rfl
      rw [if_neg hone, findPrev_eq hc hfuel]
      by_cases hmem : a ∈ init ++ [last]
      · have hinit : init ≠ [] := by
          rintro rfl
          exact hone ⟨hc.arc, (List.mem_singleton.mp hmem).symm⟩
        obtain ⟨prev, rest, hfound, hrest, herase⟩ := hc.remove hmem hinit
        rw [hfound, herase]
        exact ⟨_, rfl, .ring rfl hrest, fun hno => absurd hmem hno, rfl⟩
      · have hfront : a ∉ init := fun h => hmem (List.mem_append_left _ h)
        have hlastne : last ≠ a := fun he => hmem (List.mem_append_right _ (he ▸ List.mem_singleton_self _))
        rw [hc.arc.find_none hfront hlastne, List.erase_of_not_mem hmem]
        exact ⟨q, rfl, .ring hlast hc, fun _ => rfl, rfl⟩

/-! ## The traversals -/

theorem Lists.count (h : q.Lists l) (hfuel : l.length ≤ fuel) : q.schedTaskCount fuel = .ret l.length := by
  rw [schedTaskCount, h.traverse hfuel, foldBreak_foldl, List.foldl_add_const, Nat.zero_add, Nat.one_mul]

theorem Lists.find (h : q.Lists l) (hfuel : l.length ≤ fuel) (pid : Nat) :
    q.findTask fuel pid = .ret (l.find? fun t => (q.task t).pid = pid) := by
  rw [findTask, h.traverse hfuel, ← foldBreak_find]
  congr 2
  funext found t
  exact if_congr (by simp) rfl rfl

theorem foldBreak_waitScan (cur : Task) (pid : Nat) (s : Bool × Option Nat) :
    foldBreak (fun s t =>
      if waitsFor cur pid (q.task t) then
        if (q.task t).state = .zombie then ((true, some t), true) else ((true, s.2), false)
      else (s, false)) l s =
    (s.1 || l.any fun t => waitsFor cur pid (q.task t),
      (l.find? fun t => waitsFor cur pid (q.task t) && (q.task t).state = .zombie).or s.2) := by
  induction l generalizing s with
  | nil => simp [foldBreak]
  | cons a l ih =>
      rw [foldBreak]
      by_cases hwaits : waitsFor cur pid (q.task a) = true
      · by_cases hzombie : (q.task a).state = .zombie
        · simp [hwaits, hzombie]
        · simp [hwaits, hzombie, ih]
      · simp [hwaits, ih]

theorem Lists.scan (h : q.Lists l) (hfuel : l.length ≤ fuel) (cur : Task) (pid : Nat) :
    q.waitScan fuel cur pid = .ret (l.any fun t => waitsFor cur pid (q.task t),
      l.find? fun t => waitsFor cur pid (q.task t) && (q.task t).state = .zombie) := by
  rw [waitScan, h.traverse hfuel, foldBreak_waitScan, Bool.false_or, Option.or_none]

/-- A loop that notes where it has been. -/
theorem Lists.visits (h : q.Lists l) (hfuel : l.length ≤ fuel) :
    q.traverse fuel (fun seen t => (seen ++ [t], false)) [] = .ret l := by
  rw [h.traverse hfuel, foldBreak_foldl, List.foldl_append_eq_append, List.nil_append, ← List.flatMap_def,
    List.flatMap_singleton']

theorem Lists.round (h : q.Lists l) {last : Nat} (hlast : q.readyQueue = some last) :
    (List.range l.length).map (fun i => q.next^[i + 1] last) = l ∧ q.next^[l.length] last = last := by
  cases h with
  | empty hnone =>
      rw [hnone] at hlast
      cases hlast
  | ring hlast' hc =>
      rw [hlast', Option.some.injEq] at hlast
      subst hlast
      exact hc.iterate

theorem Lists.eq_nil (h : q.Lists l) : q.readyQueue = none ↔ l = [] := by
  cases h with
  | empty hnone => exact iff_of_true hnone rfl
  | ring hlast _ => simp [hlast]

end Ring

/-! ## Any sequence of calls -/

inductive QueueCall where
  | add (task : Nat)
  | remove (target : Nat)

def QueueCall.run (fuel : Nat) (q : ReadyQueue) : QueueCall → Exec ReadyQueue
  | .add task => .ret (q.addTask task)
  | .remove target => q.removeTask fuel target

/-- What the call means for the list of the queued tasks. -/
def QueueCall.onList (l : List Nat) : QueueCall → List Nat
  | .add task => l ++ [task]
  | .remove target => l.erase target

/-- The queued tasks, in the order in which they came. -/
def queued (calls : List QueueCall) : List Nat := calls.foldl QueueCall.onList []

/-- No task is added that is queued. -/
def Fresh : List Nat → List QueueCall → Prop
  | _, [] => True
  | l, .add task :: calls => task ∉ l ∧ Fresh (l ++ [task]) calls
  | l, .remove target :: calls => Fresh (l.erase target) calls

/-- The ring of the tasks `l`, and what the loops over it come to. -/
structure IsRing (fuel : Nat) (q : ReadyQueue) (l : List Nat) : Prop where
  empty : q.readyQueue = none ↔ l = []
  once : l.Nodup
  round : ∀ last, q.readyQueue = some last →
    (List.range l.length).map (fun i => q.next^[i + 1] last) = l ∧ q.next^[l.length] last = last
  visits : q.traverse fuel (fun seen t => (seen ++ [t], false)) [] = .ret l
  count : q.schedTaskCount fuel = .ret l.length
  find : ∀ pid, q.findTask fuel pid = .ret (l.find? fun t => (q.task t).pid = pid)
  scan : ∀ cur pid, q.waitScan fuel cur pid = .ret (l.any fun t => waitsFor cur pid (q.task t),
    l.find? fun t => waitsFor cur pid (q.task t) && (q.task t).state = .zombie)
  stranger : ∀ a ∉ l, q.removeTask fuel a = .ret q

theorem Lists.isRing {q : ReadyQueue} {l : List Nat} {fuel : Nat} (h : q.Lists l) (hfuel : l.length ≤ fuel) :
    IsRing fuel q l where
  empty := h.eq_nil
  once := h.nodup
  round := fun _ => h.round
  visits := h.visits hfuel
  count := h.count hfuel
  find := h.find hfuel
  scan := h.scan hfuel
  stranger := fun a ha => by
    obtain ⟨q', hq', -, hsame, -⟩ := h.removeTask (a := a) hfuel
    rw [hq', hsame ha]

/-- One call. -/
theorem Lists.run {q : ReadyQueue} {l : List Nat} {fuel : Nat} (h : q.Lists l) (hfuel : l.length ≤ fuel)
    (c : QueueCall) (hfresh : ∀ a, c = .add a → a ∉ l) :
    ∃ q', c.run fuel q = .ret q' ∧ q'.Lists (c.onList l) ∧ q'.task = q.task ∧ (c.onList l).length ≤ l.length + 1 := by
  cases c with
  | add a =>
      refine ⟨q.addTask a, rfl, h.addTask (hfresh a rfl), ?_, Nat.le_of_eq List.length_append⟩
      unfold ReadyQueue.addTask
      split <;> rfl
  | remove a =>
      obtain ⟨q', hq', hl, -, htask⟩ := h.removeTask (a := a) hfuel
      exact ⟨q', hq', hl, htask, Nat.le_succ_of_le List.erase_sublist.length_le⟩

theorem Lists.runAll {q : ReadyQueue} {l : List Nat} {fuel : Nat} {calls : List QueueCall} (h : q.Lists l)
    (hfresh : Fresh l calls) (hfuel : l.length + calls.length ≤ fuel) :
    ∃ q', calls.foldlM (fun q c => c.run fuel q) q = .ret q' ∧ q'.Lists (calls.foldl QueueCall.onList l) ∧
      q'.task = q.task ∧ (calls.foldl QueueCall.onList l).length ≤ fuel := by
  induction calls generalizing q l with
  | nil => exact ⟨q, rfl, h, rfl, hfuel⟩
  | cons c calls ih =>
      have hc : (∀ a, c = .add a → a ∉ l) ∧ Fresh (c.onList l) calls := by
        cases c with
        | add a => exact ⟨fun b hb => by cases hb; exact hfresh.1, hfresh.2⟩
        | remove a => exact ⟨nofun, hfresh⟩
      rw [List.length_cons] at hfuel
      have hroom : l.length ≤ fuel := by omega
      obtain ⟨q₁, hq₁, hl₁, htask₁, hlen₁⟩ := h.run hroom c hc.1
      obtain ⟨q₂, hq₂, hl₂, htask₂, hlen₂⟩ := ih hl₁ hc.2 (by omega)
      refine ⟨q₂, ?_, hl₂, htask₂.trans htask₁, hlen₂⟩
      rw [List.foldlM_cons, hq₁]
      exact hq₂

/-- For every sequence of `add_task` of tasks that are not queued and
`remove_task` of any tasks, from the empty queue on, over whatever is in
memory: the queue is the ring of the queued tasks. -/
theorem ready_queue_is_ring {calls : List QueueCall} {fuel : Nat} (hfresh : Fresh [] calls)
    (hfuel : calls.length ≤ fuel) (next : Nat → Nat) (task : Nat → Task) :
    ∃ q, calls.foldlM (fun q c => c.run fuel q) ⟨none, next, task⟩ = .ret q ∧ q.task = task ∧
      IsRing fuel q (queued calls) := by
  have hempty : Lists ⟨none, next, task⟩ [] := .empty rfl
  have hroom : ([] : List Nat).length + calls.length ≤ fuel := by
    rw [List.length_nil, Nat.zero_add]
    exact hfuel
  obtain ⟨q, hq, hl, htask, hlen⟩ := hempty.runAll hfresh hroom
  exact ⟨q, hq, htask, hl.isRing hlen⟩

/-- The oldest, the youngest and a task in between go, and one that is not there. -/
theorem ring_of_removals : ∃ q, [QueueCall.add 8, .add 16, .add 24, .add 32, .remove 32, .remove 8, .remove 40].foldlM
      (fun q c => c.run 7 q) ⟨none, fun _ => 0, fun t => ⟨⟨t, t, 0, .running⟩, ⟨0, 0, 0⟩, 0, true, 0⟩⟩ = .ret q ∧
    q.task = (fun t => ⟨⟨t, t, 0, .running⟩, ⟨0, 0, 0⟩, 0, true, 0⟩) ∧ IsRing 7 q [16, 24] :=
  have hfresh : Fresh [] [.add 8, .add 16, .add 24, .add 32, .remove 32, .remove 8, .remove 40] :=
    ⟨by decide, by decide, by decide, by decide, trivial⟩
  ready_queue_is_ring hfresh (by decide) _ _

/-! ## The ring of the scheduler -/

/-- The queue holds the tasks of the scheduler. -/
def Represents (q : ReadyQueue) (s : Sched) : Prop :=
  ∃ l, q.Lists l ∧ s.ring = l.map q.task ∧ ∀ a ∈ l, (q.task a).self = a

section Sched

variable {q : ReadyQueue} {s : Sched} {a fuel : Nat}

theorem addTask_task (q : ReadyQueue) (a : Nat) : (q.addTask a).task = q.task := by
  unfold ReadyQueue.addTask
  split <;> rfl

theorem Represents.addTask (h : q.Represents s) (hself : (q.task a).self = a) (hnew : ∀ t ∈ s.ring, t.self ≠ a) :
    (q.addTask a).Represents (LiteBSD.addTask s (q.task a)) := by
  obtain ⟨l, hl, hring, hselfs⟩ := h
  have ha : a ∉ l := fun hmem => hnew (q.task a) (hring ▸ List.mem_map_of_mem hmem) hself
  refine ⟨l ++ [a], hl.addTask ha, ?_, ?_⟩
  · rw [addTask_task, List.map_append, ← hring]
    rfl
  · rw [addTask_task]
    exact List.forall_mem_append.mpr ⟨hselfs, List.forall_mem_singleton.mpr hself⟩

theorem Represents.removeTask (h : q.Represents s) (hfuel : s.ring.length ≤ fuel) :
    ∃ q', q.removeTask fuel a = .ret q' ∧ q'.Represents (LiteBSD.removeTask s a) := by
  obtain ⟨l, hl, hring, hselfs⟩ := h
  rw [hring, List.length_map] at hfuel
  obtain ⟨q', hq', hl', -, htask⟩ := hl.removeTask (a := a) hfuel
  refine ⟨q', hq', l.erase a, hl', ?_, fun b hb => ?_⟩
  · have hfilter : l.filter (fun b => b != a) = l.filter ((fun t => t.self ≠ a) ∘ q.task) :=
      List.filter_congr fun b hb => by simp [hselfs b hb, bne, Bool.beq_eq_decide_eq]
    rw [LiteBSD.removeTask, hring, htask, hl.nodup.erase_eq_filter, List.filter_map, hfilter]
  · rw [htask]
    exact hselfs b (List.mem_of_mem_erase hb)

/-- What a search finds in the list of the tasks, found among the addresses. -/
theorem find_self {l : List Nat} (hselfs : ∀ a ∈ l, (q.task a).self = a) (p : Task → Bool) :
    ((l.map q.task).find? p).map (fun t => t.self) = l.find? fun a => p (q.task a) := by
  rw [List.find?_map, Option.map_map]
  cases hfind : l.find? (p ∘ q.task) with
  | none => exact hfind.symm
  | some a => exact (congrArg some (hselfs a (List.mem_of_find?_eq_some hfind))).trans hfind.symm

theorem Represents.findTask (h : q.Represents s) (hfuel : s.ring.length ≤ fuel) (pid : Nat) :
    q.findTask fuel pid = .ret ((LiteBSD.findTask s pid).map fun t => t.self) := by
  obtain ⟨l, hl, hring, hselfs⟩ := h
  rw [hring, List.length_map] at hfuel
  rw [hl.find hfuel, LiteBSD.findTask, hring, find_self hselfs]

theorem Represents.waitScan (h : q.Represents s) (hfuel : s.ring.length ≤ fuel) (cur : Task) (pid : Nat) :
    q.waitScan fuel cur pid =
      .ret (s.ring.any (waitsFor cur pid), (waitFound s cur pid).map fun t => t.self) := by
  obtain ⟨l, hl, hring, hselfs⟩ := h
  rw [hring, List.length_map] at hfuel
  rw [hl.scan hfuel, waitFound, hring, find_self hselfs, List.any_map]
  rfl

end Sched

end ReadyQueue

end LiteBSD
