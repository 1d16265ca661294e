/-
# `LiteBSD.Execve.Failure` — a failed `execve` changes nothing

Where `execve` returns `-1`, user memory, the interrupt frame and the task are
as they were, the heap is charged with what it was charged with before, and
every node that was opened is closed again; the count of the root alone may
have gone up, which `vfs_close` passes over.

The returns that come after the image is cleared are not taken at all.
-/
import LiteBSD.Execve.Outcome
import Mathlib.Algebra.BigOperators.Group.Finset.Basic

namespace LiteBSD.Execve

/-! ## What the heap is charged with -/

/-- Is there an object at `b` that was allocated? -/
def liveAt (v : Vfs) (b : Nat) : Bool :=
  (v.buf b).isSome || (v.cell b).isSome || (b ≠ rootAddr && (v.node b).isSome)

/-- `heap_used`, when `blockSize b` is the `size` of the block that was handed
out for the object at `b`. -/
def heapUsed (blockSize : Nat → Nat) (v : Vfs) : Nat :=
  (Finset.range v.nextObj).sum fun b => if liveAt v b then headerSize + blockSize b else 0

section Charge

variable {v w : Vfs} {blockSize : Nat → Nat}

/-- Nothing lives where the supply has not been. -/
theorem not_live (hv : Settled v) {b : Nat} (hb : v.nextObj ≤ b) : liveAt v b = false := by
  obtain ⟨hbuf, hcell⟩ := hv.fresh b hb
  simp [liveAt, hbuf, hcell, hv.table.fresh b hb]

/-- The charge as a sum over more of the supply. -/
theorem heapUsed_eq {n : Nat} (hn : v.nextObj ≤ n) (hlive : ∀ b, v.nextObj ≤ b → liveAt v b = false) :
    heapUsed blockSize v =
      (Finset.range n).sum fun b => if liveAt v b then headerSize + blockSize b else 0 := by
  refine Finset.sum_subset (Finset.range_mono hn) fun b _ hb => ?_
  have hge : v.nextObj ≤ b := Nat.le_of_not_lt fun hlt => hb (Finset.mem_range.mpr hlt)
  rw [hlive b hge]
  rfl

/-- The nodes outside of the list of the root are those of before. -/
theorem Restored.liveAt {l : List Nat} (hv : Settled v) (h : Restored v w l) (b : Nat) :
    liveAt w b = (liveAt v b || decide (b ∈ l)) := by
  obtain ⟨hhold, hroot⟩ := h
  have hcell : w.cell b = v.cell b := congrFun hhold.aside.cell b
  have hnode : (b ≠ rootAddr && (w.node b).isSome) = (b ≠ rootAddr && (v.node b).isSome) := by
    by_cases hb : b = rootAddr
    · simp [hb]
    · rw [hroot.1 b hb]
  unfold LiteBSD.Execve.liveAt
  rw [hcell, hnode]
  rcases Nat.lt_or_ge b v.nextObj with hlt | hge
  · have hnot : b ∉ l := fun hb => absurd (hhold.fresh b hb).1 (Nat.not_le.mpr hlt)
    rw [hhold.old b hlt]
    simp [hnot]
  · have hlive : (w.buf b).isSome = decide (b ∈ l) := by
      rw [Bool.eq_iff_iff, decide_eq_true_iff]
      exact hhold.live b hge
    obtain ⟨hbuf, hvcell⟩ := hv.fresh b hge
    simp [hlive, hbuf, hvcell, hv.table.fresh b hge]

/-- With nothing left over, the charge is the same. -/
theorem Restored.heapUsed (hv : Settled v) (h : Restored v w []) : heapUsed blockSize w = heapUsed blockSize v := by
  rw [heapUsed_eq h.1.supply fun b hb => not_live hv hb]
  unfold LiteBSD.Execve.heapUsed
  refine Finset.sum_congr rfl fun b _ => ?_
  rw [h.liveAt hv b]
  simp

end Charge

/-! ## A state to try it on -/

/-- The file system that these calls leave. -/
def afterCalls (calls : List VfsCall) : Vfs :=
  match vfsCalls (emptyVfs (memoryOf 7) none) calls with
  | .ret v => v
  | _ => emptyVfs (memoryOf 7) none

theorem settled_emptyVfs : Settled (emptyVfs (memoryOf 7) none) := .of_reach (.init ⟨_, _, rfl⟩)

theorem settled_afterCalls {calls : List VfsCall} : Settled (afterCalls calls) := by
  unfold afterCalls
  split
  · rename_i hcalls
    exact .of_reach (reach_vfsCalls (S := vfsSystem) id (.init ⟨_, _, rfl⟩) calls hcalls)
  · exact settled_emptyVfs

/-- What a call returns. -/
def returned {α : Type} : Exec (α × Int) → Option Int
  | .ret (_, r) => some r
  | _ => none

theorem exists_of_returned {α : Type} {x : Exec (α × Int)} {r : Int} (h : returned x = some r) :
    ∃ a, x = .ret (a, r) := by
  unfold returned at h
  split at h
  · cases h
    exact ⟨_, rfl⟩
  · cases h

/-- Blocks of the size of a stack, side by side. -/
def sideBySide : Placement where
  addr b := heapStart + 16 + b % 1000 * 16400
  inHeap b := by
    have hlt := Nat.mod_lt b (show 1000 > 0 by decide)
    unfold heapStart heapEnd execStackSize heapStart heapSize
    omega

/-- A task with nothing of its own. -/
def bareTask : Task := ⟨1, true, 0, 0, none, 0, 0, none, [], []⟩

/-- A machine with this file system, and user memory that holds `text` at
`0x8000000` and zeros elsewhere. -/
def machineOf (v : Vfs) (text : List UInt8) : State where
  vfs := v
  mem a := if userLoadAddr ≤ a then (text[a - userLoadAddr]?).getD 0 else 0
  task := some bareTask
  parent := none
  frame := ⟨0, 0, 0, 0, 0⟩
  place := sideBySide
  caller _ := rootCaller

/-! ## Failing -/

/-- The image has been cleared and loaded from `node`: `s₂` is the state
behind that, and `ok` says whether the second look at the headers found them
all. -/
def Loaded (s₁ : State) (node : Nat) (s₂ : State) (ok : Bool) : Prop :=
  ∃ header last s₀ mem mem',
    vfsRead s₁.vfs node 0 52 = .ret (header, 52) ∧
    scanLoop s₁.vfs node (headerOf header) (headerOf header).phnum 0 0 = .ret (some last) ∧
    takeSnapshot s₁ = .ret s₀ ∧ zeroMem s₀.mem userLoadAddr (min last 0x400000) = .ret mem ∧
    loadLoop s₀.vfs node (headerOf header) (headerOf header).phnum 0 mem = .ret (mem', ok) ∧
    s₂ = { s₀ with mem := mem' }

section Failing

variable {s s' s₁ s₂ : State} {t : Task} {path argvU envpU node stack : Nat} {script : Script} {envv : Vec} {r : Int}

/-- Behind the clearing of the image `execve` does not fail. -/
theorem late_returns_unreachable (hv : Settled s.vfs) (ht : s.task = some t)
    (h : StartsLoading s path argvU envpU s₁ node stack script envv) {ok : Bool} (hl : Loaded s₁ node s₂ ok) :
    ok = true ∧ ∀ w, closeNode s₂.vfs (some node) = .ret w → ∀ entry clearEnd s' r,
      enterImage { s₂ with vfs := w } stack entry clearEnd script.path script.argv envv = .ret (s', r) → r = 0 := by
  obtain ⟨d, args, envs, hstage, hbudget, ⟨m, hm, hlen⟩, htask, _⟩ := h.stage hv
  obtain ⟨header, last, s₀, mem, mem', _, hscan, hsnap, _, hload, rfl⟩ := hl
  obtain ⟨hkeep, snap, n, hstage₀, _, hsame⟩ := takeSnapshot_spec hstage (htask.trans ht) hsnap
  have hread : ∀ o c, vfsRead s₀.vfs node o c = vfsRead s₁.vfs node o c := hstage.read hstage₀ hv hkeep
  refine ⟨loadLoop_ok hread hscan hload, fun w hw entry clearEnd s' r he => ?_⟩
  obtain ⟨hshut, hmore⟩ := hstage₀.closeNode hw
  have hbuf : w.buf stack = some m := by
    rw [hmore stack List.mem_cons_self, hkeep.buf stack, hm]
    exact (hstage.holding.fresh stack (by simp)).2
  have ht₀ : s₀.task = some { t with imgSize := n, imgSnapshot := snap <|> t.imgSnapshot } := by
    rw [hsame]
  exact (enterImage_spec (s := { s₀ with mem := mem', vfs := w }) hshut hbudget hbuf hlen ht₀ he).1

/-- A failed `execve` changes nothing: user memory, the frame and the task are
as before, so is all the file system but for the count of the root, and so is
the charge of the heap; and no failure comes behind the clearing of the
image. -/
theorem failed_execve_changes_nothing (hv : Settled s.vfs) (ht : s.task = some t) :
    (∀ s', sysExecveImpl s path argvU envpU = .ret (s', -1) →
      s'.mem = s.mem ∧ s'.frame = s.frame ∧ s'.task = s.task ∧
      s'.vfs.nodes = s.vfs.nodes ∧ s'.vfs.buf = s.vfs.buf ∧ s'.vfs.cell = s.vfs.cell ∧ s'.vfs.fb = s.vfs.fb ∧
      RootOnly s.vfs.node s'.vfs.node ∧ ∀ blockSize, heapUsed blockSize s'.vfs = heapUsed blockSize s.vfs) ∧
    ∀ s₁ node stack script envv s₂ ok, StartsLoading s path argvU envpU s₁ node stack script envv →
      Loaded s₁ node s₂ ok → ok = true ∧ ∀ w, closeNode s₂.vfs (some node) = .ret w → ∀ entry clearEnd s' r,
        enterImage { s₂ with vfs := w } stack entry clearEnd script.path script.argv envv = .ret (s', r) → r = 0 := by
  refine ⟨fun s' he => ?_, fun s₁ node stack script envv s₂ ok h hl => late_returns_unreachable hv ht h hl⟩
  have hun : Unchanged s.vfs s s' := by
    rcases sysExecveImpl_spec hv ht he with ⟨_, hun⟩ | ⟨_, _, _, _, ⟨_, hun⟩ | ⟨hr, _⟩⟩
    · exact hun
    · exact hun
    · cases hr
  obtain ⟨hsame, hrest⟩ := hun
  have hbuf : s'.vfs.buf = s.vfs.buf := by
    funext b
    rcases Nat.lt_or_ge b s.vfs.nextObj with hlt | hge
    · exact hrest.1.old b hlt
    · have hnot : ¬(s'.vfs.buf b).isSome := fun hs => List.not_mem_nil ((hrest.1.live b hge).mp hs)
      rw [(hv.fresh b hge).1]
      exact Option.not_isSome_iff_eq_none.mp hnot
  refine ⟨?_, ?_, ?_, hrest.1.aside.nodes, hbuf, hrest.1.aside.cell, hrest.1.aside.fb, hrest.2,
    fun _ => hrest.heapUsed hv⟩
  all_goals rw [hsame]

/-- The scripts `/s` and `/t`, of which the one is run by the other, and that
by a program that is not there. -/
def brokenChain : Vfs :=
  afterCalls [.openPath rootCaller (str "/s") 0x40, .write 1 0 (str "#!/t -x\n"), .close 1,
    .openPath rootCaller (str "/t") 0x40, .write 3 0 (str "#!/none\n"), .close 3]

theorem settled_brokenChain : Settled brokenChain := settled_afterCalls

/-- A task with an image, on a machine with these files.  At `0x8000000` are the name of `/s`, a vector of two strings and one of one. -/
def brokenMachine : State :=
  { machineOf brokenChain
      ([47, 115, 0, 0] ++ [24, 0, 0, 8, 27, 0, 0, 8, 0, 0, 0, 0] ++ [30, 0, 0, 8, 0, 0, 0, 0] ++
        [97, 98, 0] ++ [99, 100, 0] ++ [88, 61, 49, 0]) with
    task := some { bareTask with imgSize := 34, comm := str "init" } }

/-- The chain of scripts is followed to its end, and nothing is changed. -/
theorem execve_of_broken_chain : ∃ s',
    sysExecveImpl brokenMachine userLoadAddr (userLoadAddr + 4) (userLoadAddr + 16) = .ret (s', -1) ∧
      s'.mem = brokenMachine.mem ∧ s'.task = brokenMachine.task ∧ s'.vfs.buf = brokenMachine.vfs.buf ∧
      ∀ blockSize, heapUsed blockSize s'.vfs = heapUsed blockSize brokenMachine.vfs := by
  obtain ⟨s', hs'⟩ : ∃ s',
      sysExecveImpl brokenMachine userLoadAddr (userLoadAddr + 4) (userLoadAddr + 16) = .ret (s', -1) :=
    exists_of_returned (by decide +kernel)
  have hv : Settled brokenMachine.vfs := settled_brokenChain
  obtain ⟨hmem, -, htask, -, hbuf, -, -, -, hheap⟩ := (failed_execve_changes_nothing hv rfl).1 s' hs'
  exact ⟨s', hs', hmem, htask, hbuf, hheap⟩

end Failing

end LiteBSD.Execve
