/-
# `LiteBSD.Sched.Image` — one window for all user images

Every program is loaded at `USER_LOAD_ADDR`, into the same 4 MiB.  The first
`execve` of a child saves what its parent has there, and its exit puts it
back: as many bytes as the child's image has THEN, out of a block with as many
bytes as the parent's image has.  A larger image that is gone by then (the
child's own earlier one, or a descendant's) has written to bytes that this
misses.

The tasks of a run of `fork`, `execve` and `exit` are a stack, the running
one on top and the parent of each below it (`Sched.Chain`), and only the
running one does anything.  `execve` is the one that succeeds, and `kmalloc`
the one that returns: it ends in `err()` rather than `NULL` for the sizes of
images.

`first` and `reach` are for the record, no function looks at them: the window
as it was at the first `execve` of a task, and how far into it images have
been loaded since, by the task or above it.
-/
import Mathlib.Data.List.Pairwise
import Mathlib.Data.List.Chain
import LiteBSD.Lib.Runs

namespace LiteBSD.Image

open Lib

/-- The bytes from `USER_LOAD_ADDR` on. -/
abbrev Bytes := Nat → UInt8

/-- The size of the window, `0x400000`. -/
def windowSize : Nat := 4194304

/-- A segment of type `ELF_PT_LOAD`: its place in the window, the two sizes
of its header, and what `vfs_read` finds in the file for it. -/
structure LoadSegment where
  offset : Nat
  fileSize : Nat
  memSize : Nat
  bytes : List UInt8
  read : bytes.length ≤ fileSize
  inWindow : offset + max fileSize memSize ≤ windowSize

/-- `clear_end` -/
def clearEnd (segs : List LoadSegment) : Nat :=
  min (segs.foldl (fun e s => if s.offset + s.memSize > e then s.offset + s.memSize else e) 0)
    windowSize

def clear (mem : Bytes) (n : Nat) : Bytes := fun j => if j < n then 0 else mem j

/-- The bytes of the file, and zeros for the rest of the segment. -/
def loadSegment (mem : Bytes) (s : LoadSegment) : Bytes :=
  let mem := fun j => if s.offset ≤ j then (s.bytes[j - s.offset]?).getD (mem j) else mem j
  fun j => if s.offset + s.fileSize ≤ j ∧ j < s.offset + s.memSize then 0 else mem j

def load (mem : Bytes) (segs : List LoadSegment) : Bytes :=
  segs.foldl loadSegment (clear mem (clearEnd segs))

/-- The first byte that no segment of the image gets at. -/
def extent (segs : List LoadSegment) : Nat :=
  segs.foldr (fun s e => max (s.offset + max s.fileSize s.memSize) e) (clearEnd segs)

/-- The block of `img_snapshot`. -/
structure Snapshot where
  len : Nat
  bytes : Bytes

/-- A byte of the block, or of what the heap has behind it. -/
def Snapshot.read (s : Snapshot) (heap : Bytes) (j : Nat) : UInt8 :=
  if j < s.len then s.bytes j else heap j

structure Task where
  imgSize : Nat
  imgSnapshot : Option Snapshot
  first : Option Bytes
  reach : Nat

structure Machine where
  tasks : List Task
  mem : Bytes

/-- A task that `fork_task` or `create_user_task` made. -/
def newTask : Task := ⟨0, none, none, 0⟩

/-- The snapshot that `execve` takes of the image of the parent, the top of
`rest`; the first task has no parent. -/
def takeSnapshot (t : Task) (rest : List Task) (mem : Bytes) : Task :=
  match t.imgSnapshot, rest with
  | none, p :: _ =>
      if p.imgSize > 0 ∧ p.imgSize ≤ windowSize then
        { t with imgSnapshot := some ⟨p.imgSize, mem⟩, imgSize := p.imgSize }
      else t
  | _, _ => t

/-- For the record: `t` loads an image that ends at `n` over `mem`. -/
def Task.loads (t : Task) (mem : Bytes) (n : Nat) : Task :=
  { t with
    first := t.first.or (some mem)
    reach := if t.first.isSome then max t.reach n else n }

/-- For the record: a descendant does. -/
def Task.grown (n : Nat) (t : Task) : Task := { t with reach := max t.reach n }

def execve (m : Machine) (segs : List LoadSegment) : Option Machine :=
  match m.tasks with
  | [] => none
  | t :: rest =>
      -- `[EXECVE] No load segments`
      if clearEnd segs = 0 then none
      else
        let t := { takeSnapshot t rest m.mem with imgSize := clearEnd segs }
        some {
          tasks := t.loads m.mem (extent segs) :: rest.map (Task.grown (extent segs))
          mem := load m.mem segs }

/-- `fork_task`: the parent is blocked from here on. -/
def fork (m : Machine) : Option Machine :=
  match m.tasks with
  | [] => none
  | t :: rest => some { m with tasks := newTask :: t :: rest }

/-- `task_exit`: the parent runs again. -/
def exit (m : Machine) (heap : Bytes) : Option Machine :=
  match m.tasks with
  | [] => none
  | t :: rest => some {
      tasks := rest
      mem := match t.imgSnapshot with
        | none => m.mem
        | some s => fun j => if j < t.imgSize then s.read heap j else m.mem j }

/-- The size of the image that runs: a child that has not called `execve`
runs its parent's. -/
def runningSize : List Task → Nat
  | [] => 0
  | t :: rest => if t.imgSize = 0 then runningSize rest else t.imgSize

/-- A program writes into its own image. -/
def store (m : Machine) (i : Nat) (b : UInt8) : Option Machine :=
  if i < runningSize m.tasks then some { m with mem := Function.update m.mem i b } else none

inductive Event where
  | fork
  | execve (segs : List LoadSegment)
  | store (i : Nat) (b : UInt8)
  | exit (heap : Bytes)

def Event.run (m : Machine) : Event → Option Machine
  | fork => Image.fork m
  | execve segs => Image.execve m segs
  | store i b => Image.store m i b
  | exit heap => Image.exit m heap

/-- One task, before its first `execve`. -/
def imageSystem : System Machine Event where
  init := fun m => m.tasks = [newTask]
  step := fun m e m' => e.run m = some m'

/-- A parent that runs again finds its image as it was when the child called
`execve` for the first time. -/
def Survives (m : Machine) (e : Event) (m' : Machine) : Prop :=
  ∀ heap t p rest f, e = .exit heap → m.tasks = t :: p :: rest → t.first = some f →
    ∀ j < p.imgSize, m'.mem j = f j

/-- No image that was loaded since the first `execve` of a task that exits
reaches farther than the one it has now, unless that one is as large as its
parent's. -/
def Covers (m : Machine) : Event → Prop
  | .exit _ => ∀ t p rest, m.tasks = t :: p :: rest → t.first ≠ none →
      t.reach ≤ t.imgSize ∨ p.imgSize ≤ t.imgSize
  | _ => True

/-! ## Loading -/

section Load

variable {mem : Bytes} {segs : List LoadSegment} {s : LoadSegment} {j : Nat}

theorem clearEnd_le_extent : clearEnd segs ≤ extent segs := by
  unfold extent
  generalize clearEnd segs = n
  induction segs with
  | nil => exact Nat.le_refl n
  | cons s segs ih => exact Nat.le_trans ih (Nat.le_max_right _ _)

theorem stop_le_extent (hs : s ∈ segs) : s.offset + max s.fileSize s.memSize ≤ extent segs := by
  unfold extent
  generalize clearEnd segs = n
  induction segs with
  | nil => cases hs
  | cons s' segs ih =>
      rcases List.mem_cons.mp hs with rfl | hs
      · exact Nat.le_max_left _ _
      · exact Nat.le_trans (ih hs) (Nat.le_max_right _ _)

/-- A segment writes nothing behind its end. -/
theorem loadSegment_of_ge (hj : s.offset + max s.fileSize s.memSize ≤ j) :
    loadSegment mem s j = mem j := by
  have hlen := s.read
  have hzero : ¬(s.offset + s.fileSize ≤ j ∧ j < s.offset + s.memSize) := by omega
  have hnone : s.bytes[j - s.offset]? = none := List.getElem?_eq_none (by omega)
  unfold loadSegment
  dsimp only
  rw [if_neg hzero, hnone]
  split <;> rfl

theorem foldl_loadSegment (hj : ∀ s ∈ segs, s.offset + max s.fileSize s.memSize ≤ j) :
    segs.foldl loadSegment mem j = mem j := by
  induction segs generalizing mem with
  | nil => rfl
  | cons s segs ih =>
      rw [List.forall_mem_cons] at hj
      rw [List.foldl_cons, ih hj.2, loadSegment_of_ge hj.1]

/-- An image leaves what is behind it. -/
theorem load_of_ge (hj : extent segs ≤ j) : load mem segs j = mem j := by
  unfold load
  rw [foldl_loadSegment fun s hs => Nat.le_trans (stop_le_extent hs) hj, clear, if_neg]
  exact Nat.not_lt.mpr (Nat.le_trans clearEnd_le_extent hj)

end Load

/-! ## The invariant -/

/-- A task by itself: one that has called `execve` has an image within its
reach, and behind its reach the window is as it was then. -/
structure TaskOk (mem : Bytes) (t : Task) : Prop where
  blank : t.first = none → t.imgSize = 0 ∧ t.imgSnapshot = none
  size : t.first ≠ none → 0 < t.imgSize ∧ t.imgSize ≤ t.reach
  window : t.imgSize ≤ windowSize
  intact : ∀ f, t.first = some f → ∀ j, t.reach ≤ j → mem j = f j

/-- A task and its parent: the snapshot has all of the parent's image, as it
was at the first `execve`. -/
def Saved (t p : Task) : Prop :=
  ∀ f, t.first = some f → 0 < p.imgSize →
    ∃ s, t.imgSnapshot = some s ∧ s.len = p.imgSize ∧ ∀ j < p.imgSize, s.bytes j = f j

/-- A task and one below it, which may not be its parent. -/
def Within (t u : Task) : Prop := u.first ≠ none → t.imgSize ≤ u.reach

structure ImageInv (m : Machine) : Prop where
  ok : ∀ t ∈ m.tasks, TaskOk m.mem t
  saved : m.tasks.IsChain Saved
  within : m.tasks.Pairwise Within

section Invariant

variable {m m' : Machine} {t p u : Task} {rest : List Task}

theorem TaskOk.congr {mem mem' : Bytes} (h : TaskOk mem t)
    (hmem : t.first ≠ none → ∀ j, t.reach ≤ j → mem' j = mem j) : TaskOk mem' t := by
  refine ⟨h.blank, h.size, h.window, fun f hf j hj => ?_⟩
  rw [hmem (by rw [hf]; nofun) j hj, h.intact f hf j hj]

/-- The image that runs is within the reach of every task. -/
theorem runningSize_le {tasks : List Task} {mem : Bytes} (hok : ∀ t ∈ tasks, TaskOk mem t)
    (hwithin : tasks.Pairwise Within) (hu : u ∈ tasks) (hf : u.first ≠ none) :
    runningSize tasks ≤ u.reach := by
  induction tasks with
  | nil => cases hu
  | cons t rest ih =>
      rw [List.pairwise_cons] at hwithin
      rw [List.forall_mem_cons] at hok
      unfold runningSize
      split
      · rename_i hzero
        rcases List.mem_cons.mp hu with rfl | hu
        · have hpos := (hok.1.size hf).1
          rw [hzero] at hpos
          cases hpos
        · exact ih hok.2 hwithin.2 hu
      · rcases List.mem_cons.mp hu with rfl | hu
        · exact (hok.1.size hf).2
        · exact hwithin.1 u hu hf

/-- The task that calls `execve`. -/
theorem TaskOk.execve {mem : Bytes} {segs : List LoadSegment} (h : TaskOk mem t) {s : Option Snapshot}
    (hpos : clearEnd segs ≠ 0) :
    TaskOk (load mem segs)
      ({ t with imgSnapshot := s, imgSize := clearEnd segs }.loads mem (extent segs)) := by
  have hreach : extent segs ≤ if t.first.isSome then max t.reach (extent segs) else extent segs := by
    split
    · exact Nat.le_max_right _ _
    · exact Nat.le_refl _
  refine ⟨fun hnone => ?_, fun _ => ⟨Nat.pos_of_ne_zero hpos, ?_⟩, Nat.min_le_right _ _,
    fun f hf j hj => ?_⟩
  · have hnone : t.first.or (some mem) = none := hnone
    cases hfirst : t.first <;> simp [hfirst] at hnone
  · exact Nat.le_trans clearEnd_le_extent hreach
  · have hf : t.first.or (some mem) = some f := hf
    have hj : (if t.first.isSome then max t.reach (extent segs) else extent segs) ≤ j := hj
    rw [load_of_ge (Nat.le_trans hreach hj)]
    cases hfirst : t.first with
    | none =>
        rw [hfirst] at hf
        cases hf
        rfl
    | some g =>
        rw [hfirst] at hf hj
        cases hf
        exact h.intact _ hfirst j (Nat.le_trans (Nat.le_max_left _ _) hj)

/-- A task below the one that calls `execve`. -/
theorem TaskOk.grown {mem : Bytes} {segs : List LoadSegment} (h : TaskOk mem u) :
    TaskOk (load mem segs) (u.grown (extent segs)) := by
  refine ⟨h.blank, fun hf => ⟨(h.size hf).1, ?_⟩, h.window, fun f hf j hj => ?_⟩
  · exact Nat.le_trans (h.size hf).2 (Nat.le_max_left _ _)
  · have hj : max u.reach (extent segs) ≤ j := hj
    rw [load_of_ge (Nat.le_trans (Nat.le_max_right _ _) hj)]
    exact h.intact f hf j (Nat.le_trans (Nat.le_max_left _ _) hj)

/-- What `execve` saves is the parent's image at the first one, and stays. -/
theorem saved_takeSnapshot {mem : Bytes} (ht : TaskOk mem t) (hp : TaskOk mem p)
    (hsaved : Saved t p) (n k : Nat) :
    Saved ({ takeSnapshot t (p :: rest) mem with imgSize := n }.loads mem k) p := by
  intro f hf hpos
  show ∃ s, (takeSnapshot t (p :: rest) mem).imgSnapshot = some s ∧ _
  have hf : (takeSnapshot t (p :: rest) mem).first.or (some mem) = some f := hf
  unfold takeSnapshot at hf ⊢
  cases hfirst : t.first with
  | none =>
      rw [(ht.blank hfirst).2] at hf ⊢
      dsimp only at hf ⊢
      rw [if_pos ⟨hpos, hp.window⟩] at hf ⊢
      dsimp only at hf
      rw [hfirst] at hf
      cases hf
      exact ⟨_, rfl, rfl, fun _ _ => rfl⟩
  | some g =>
      obtain ⟨s, hs, hlen, hbytes⟩ := hsaved g hfirst hpos
      rw [hs] at hf ⊢
      dsimp only at hf ⊢
      rw [hfirst] at hf
      cases hf
      exact ⟨s, hs, hlen, hbytes⟩

theorem takeSnapshot_eq (t : Task) (rest : List Task) (mem : Bytes) (n : Nat) :
    ∃ s, { takeSnapshot t rest mem with imgSize := n } = { t with imgSnapshot := s, imgSize := n } := by
  unfold takeSnapshot
  split
  · split
    · exact ⟨_, rfl⟩
    · exact ⟨t.imgSnapshot, rfl⟩
  · exact ⟨t.imgSnapshot, rfl⟩

theorem ImageInv.execve (h : ImageInv m) {segs : List LoadSegment}
    (hs : execve m segs = some m') : ImageInv m' := by
  unfold Image.execve at hs
  split at hs
  · cases hs
  rename_i t rest htasks
  split at hs
  · cases hs
  rename_i hpos
  cases hs
  obtain ⟨hok, hsaved, hwithin⟩ := h
  rw [htasks] at hok hsaved hwithin
  rw [List.forall_mem_cons] at hok
  rw [List.pairwise_cons] at hwithin
  refine ⟨?_, ?_, ?_⟩
  · rw [List.forall_mem_cons]
    refine ⟨?_, fun u hu => ?_⟩
    · obtain ⟨s, hs⟩ := takeSnapshot_eq t rest m.mem (clearEnd segs)
      dsimp only
      rw [hs]
      exact hok.1.execve hpos
    · obtain ⟨u', hu', rfl⟩ := List.mem_map.mp hu
      exact (hok.2 u' hu').grown
  · cases rest with
    | nil => exact .singleton _
    | cons p rest =>
        rw [List.isChain_cons_cons] at hsaved
        have hp := hok.2 p List.mem_cons_self
        refine List.isChain_cons_cons.mpr ⟨saved_takeSnapshot hok.1 hp hsaved.1 _ _, ?_⟩
        have hkeeps (a b : Task) (hab : Saved a b) :
            Saved (a.grown (extent segs)) (b.grown (extent segs)) := hab
        exact List.isChain_map_of_isChain (Task.grown (extent segs)) hkeeps hsaved.2
  · refine List.pairwise_cons.mpr ⟨fun u hu _ => ?_, ?_⟩
    · obtain ⟨u', _, rfl⟩ := List.mem_map.mp hu
      exact Nat.le_trans clearEnd_le_extent (Nat.le_max_right _ _)
    · refine List.pairwise_map.mpr (hwithin.2.imp fun hab hf => ?_)
      exact Nat.le_trans (hab hf) (Nat.le_max_left _ _)

theorem ImageInv.fork (h : ImageInv m) (hs : fork m = some m') : ImageInv m' := by
  unfold Image.fork at hs
  split at hs
  · cases hs
  rename_i t rest htasks
  cases hs
  obtain ⟨hok, hsaved, hwithin⟩ := h
  rw [htasks] at hok hsaved hwithin
  refine ⟨List.forall_mem_cons.mpr ⟨?_, hok⟩, List.isChain_cons_cons.mpr ⟨nofun, hsaved⟩,
    List.pairwise_cons.mpr ⟨fun u _ _ => Nat.zero_le _, hwithin⟩⟩
  exact ⟨fun _ => ⟨rfl, rfl⟩, fun hf => absurd rfl hf, Nat.zero_le _, nofun⟩

theorem ImageInv.store (h : ImageInv m) {i : Nat} {b : UInt8} (hs : store m i b = some m') :
    ImageInv m' := by
  unfold Image.store at hs
  split at hs
  · rename_i hi
    cases hs
    refine ⟨fun u hu => (h.ok u hu).congr fun hf j hj => ?_, h.saved, h.within⟩
    have hle := runningSize_le h.ok h.within hu hf
    exact Function.update_of_ne (Nat.ne_of_gt (Nat.lt_of_lt_of_le hi (Nat.le_trans hle hj))) _ _
  · cases hs

/-- An exit gives nothing to the window behind the image of the task. -/
theorem exit_of_ge {heap : Bytes} (htasks : m.tasks = t :: rest) (hs : exit m heap = some m')
    {j : Nat} (hj : t.imgSize ≤ j) : m'.mem j = m.mem j := by
  unfold Image.exit at hs
  rw [htasks] at hs
  cases hs
  dsimp only
  cases t.imgSnapshot with
  | none => rfl
  | some s => exact if_neg (Nat.not_lt.mpr hj)

theorem exit_tasks {heap : Bytes} (htasks : m.tasks = t :: rest) (hs : exit m heap = some m') :
    m'.tasks = rest := by
  unfold Image.exit at hs
  rw [htasks] at hs
  cases hs
  rfl

theorem ImageInv.exit (h : ImageInv m) {heap : Bytes} (hs : exit m heap = some m') :
    ImageInv m' := by
  cases htasks : m.tasks with
  | nil =>
      rw [Image.exit, htasks] at hs
      cases hs
  | cons t rest =>
      obtain ⟨hok, hsaved, hwithin⟩ := h
      rw [htasks] at hok hsaved hwithin
      rw [List.pairwise_cons] at hwithin
      have htasks' := exit_tasks htasks hs
      refine ⟨fun u hu => ?_, htasks' ▸ hsaved.tail, htasks' ▸ hwithin.2⟩
      rw [htasks'] at hu
      refine (hok u (List.mem_cons_of_mem t hu)).congr fun hf j hj => ?_
      exact exit_of_ge htasks hs (Nat.le_trans (hwithin.1 u hu hf) hj)

theorem ImageInv.init (h : imageSystem.init m) : ImageInv m := by
  have htasks : m.tasks = [newTask] := h
  refine ⟨?_, htasks ▸ .singleton _, htasks ▸ List.pairwise_singleton _ _⟩
  rw [htasks]
  intro t ht
  rw [List.mem_singleton.mp ht]
  exact ⟨fun _ => ⟨rfl, rfl⟩, fun hf => absurd rfl hf, Nat.zero_le _, nofun⟩

/-- Every step keeps the invariant. -/
theorem ImageInv.step (h : ImageInv m) {e : Event} (hs : imageSystem.step m e m') : ImageInv m' := by
  cases e with
  | fork => exact h.fork hs
  | execve segs => exact h.execve hs
  | store i b => exact h.store hs
  | exit heap => exact h.exit hs

/-- A parent whose image is covered gets it back. -/
theorem ImageInv.survives (h : ImageInv m) {e : Event} (hs : imageSystem.step m e m')
    (hcovers : Covers m e) : Survives m e m' := by
  rintro heap t p rest f rfl htasks hf j hj
  have hs : Image.exit m heap = some m' := hs
  obtain ⟨hok, hsaved, _⟩ := h
  rw [htasks] at hok hsaved
  have ht := hok t List.mem_cons_self
  by_cases hsize : j < t.imgSize
  · obtain ⟨s, hsnap, hlen, hbytes⟩ :=
      (List.isChain_cons_cons.mp hsaved).1 f hf (Nat.lt_of_le_of_lt (Nat.zero_le j) hj)
    rw [Image.exit, htasks] at hs
    cases hs
    dsimp only
    rw [hsnap]
    dsimp only
    rw [if_pos hsize, Snapshot.read, if_pos (hlen ▸ hj), hbytes j hj]
  · have hge : t.imgSize ≤ j := Nat.le_of_not_lt hsize
    rw [exit_of_ge htasks hs hge]
    rcases hcovers t p rest htasks (by rw [hf]; nofun) with hreach | hparent
    · exact ht.intact f hf j (Nat.le_trans hreach hge)
    · exact absurd (Nat.lt_of_lt_of_le hj hparent) hsize

end Invariant

/-- After every run, a parent that the exit of its child wakes has its image
as it was, if the child's last image covers it or nothing larger was loaded in
between. -/
theorem parent_image_survives {m m' : Machine} {e : Event} (h : imageSystem.Reach m)
    (hs : imageSystem.step m e m') (hcovers : Covers m e) : Survives m e m' := by
  have hinv : ImageInv m :=
    System.ReachVia.invariant (fun _ => ImageInv.init) (fun _ _ _ hi _ hs => hi.step hs) h
  exact hinv.survives hs hcovers

/-- Several events in a row. -/
def runs (m : Machine) : List Event → Option Machine
  | [] => some m
  | e :: es => (e.run m).bind fun m => runs m es

/-- Events in a row are a run. -/
theorem reach_runs {m m' : Machine} {es : List Event} (h : imageSystem.Reach m)
    (hrun : runs m es = some m') : imageSystem.Reach m' := by
  induction es generalizing m with
  | nil =>
      cases hrun
      exact h
  | cons e es ih =>
      obtain ⟨m₁, hm₁, hrun⟩ := Option.bind_eq_some_iff.mp hrun
      exact ih (.step h trivial hm₁) hrun

/-- One segment of `n` bytes `b`. -/
def imageOf (n : Nat) (b : UInt8) (h : n ≤ windowSize) : List LoadSegment :=
  [{  offset := 0
      fileSize := n
      memSize := n
      bytes := List.replicate n b
      read := by rw [List.length_replicate]
      inWindow := by rwa [Nat.max_self, Nat.zero_add] }]

/-- A parent with an image of two bytes forks. -/
def forked (events : List Event) : Option Machine :=
  runs ⟨[newTask], fun _ => 0⟩ ([.execve (imageOf 2 7 (by decide)), .fork] ++ events)

theorem reach_forked {m : Machine} {events : List Event} (h : forked events = some m) :
    imageSystem.Reach m :=
  reach_runs (m := ⟨[newTask], fun _ => 0⟩) (.init rfl) h

/-- The child loads a larger image and exits. -/
theorem larger_child_exits : ∃ m m', imageSystem.Reach m ∧ Covers m (.exit fun _ => 1) ∧
    imageSystem.step m (.exit fun _ => 1) m' ∧ Survives m (.exit fun _ => 1) m' := by
  obtain ⟨m, m', t, p, hrun, hs, htasks, hle⟩ : ∃ m m' t p,
      forked [.execve (imageOf 3 9 (by decide))] = some m ∧ Image.exit m (fun _ => 1) = some m' ∧
      m.tasks = [t, p] ∧ p.imgSize ≤ t.imgSize := ⟨_, _, _, _, rfl, rfl, rfl, by decide⟩
  have hcovers : Covers m (.exit fun _ => 1) := by
    intro t' p' rest htasks' _
    rw [htasks] at htasks'
    cases htasks'
    exact .inr hle
  exact ⟨m, m', reach_forked hrun, hcovers, hs, parent_image_survives (reach_forked hrun) hs hcovers⟩

/-- The child loads two images, the second smaller than the first: of the
parent's two bytes only one comes back. -/
theorem smaller_image_loses_byte :
    ¬∀ m e m', imageSystem.Reach m → imageSystem.step m e m' → Survives m e m' := by
  intro hall
  obtain ⟨m, m', t, p, f, hrun, hs, htasks, hf, hsize, hthen, hnow⟩ : ∃ m m' t p f,
      forked [.execve (imageOf 2 9 (by decide)), .execve (imageOf 1 5 (by decide))] = some m ∧
      Image.exit m (fun _ => 1) = some m' ∧ m.tasks = [t, p] ∧ t.first = some f ∧ p.imgSize = 2 ∧
      f 1 = 7 ∧ m'.mem 1 = 9 := ⟨_, _, _, _, _, rfl, rfl, rfl, rfl, rfl, rfl, rfl⟩
  have hsurvives := hall m (.exit fun _ => 1) m' (reach_forked hrun) hs
  have hbyte := hsurvives _ t p [] f rfl htasks hf 1 (by rw [hsize]; decide)
  rw [hthen, hnow] at hbyte
  exact absurd hbyte (by decide)

end LiteBSD.Image
