/-
# `LiteBSD.Tasks.Snapshots` — is `img_size` the size of the snapshot?

`task_exit` copies `img_size` bytes out of the snapshot, so that it has to be
the size of that block.  It is when the snapshot is taken; but `execve` stores
the size of the image it has loaded into the same field before it returns, and
every later `execve` of the task does so too.  The two are the same number only
where the image of the child is as large as the one of its parent was.

The runs here are those of `fork`, `execve` and `exit` by any tasks in any
order, over any file system to take programs from.
-/
import LiteBSD.Execve.Snapshot
import LiteBSD.Tasks.Blocks

namespace LiteBSD.Tasks

open Lib Files

/-- The loop of `task_exit` over the bytes of the snapshot, from the byte `i` on. -/
def restoreLoop (m : Buf) : Nat → Nat → (Nat → UInt8) → Exec (Nat → UInt8)
  | 0, _, mem => .ret mem
  | rounds + 1, i, mem =>
      if i < m.len then restoreLoop m rounds (i + 1) (Function.update mem (Execve.userLoadAddr + i) (m.byte i))
      else .undefined

/-- It reads no byte behind the block exactly if there are as many. -/
theorem restoreLoop_ret {m : Buf} {rounds i : Nat} {mem : Nat → UInt8} (hi : i ≤ m.len) :
    (∃ mem', restoreLoop m rounds i mem = .ret mem') ↔ i + rounds ≤ m.len := by
  induction rounds generalizing i mem with
  | zero => exact iff_of_true ⟨mem, rfl⟩ hi
  | succ rounds ih =>
      rw [restoreLoop]
      by_cases hlt : i < m.len
      · rw [if_pos hlt, ih hlt]
        omega
      · rw [if_neg hlt]
        exact iff_of_false nofun (by omega)

/-! ## The runs -/

/-- A task is made, starts a program or ends. -/
def LifeCycle : TaskEvent → Prop
  | .spawn _ | .fork _ | .execve .. | .exit .. => True
  | _ => False

/-- No task yet, and any file system. -/
def snapshotSystem : System State TaskEvent where
  init := fun s => s.kernel.tasks = [] ∧ Settled s.kernel.vfs ∧ ∀ f, s.kernel.file f = none
  step := fun s e s' => LifeCycle e ∧ taskSystem.step s e s'

/-- An `execve` of a task that has a snapshot, or takes one, loads an image of
that size. -/
def SizesAgree (s : State) : TaskEvent → Prop
  | .execve t p => ∀ n ∈ Execve.snapshotSize (execState s t p),
      ∀ clearEnd ∈ Execve.imageEnd s.kernel.vfs (Execve.imageSource (execState s t p) p.path), clearEnd = n
  | _ => True

/-! ## What stays -/

/-- The blocks of `v` are as they were. -/
structure Later (v w : Vfs) : Prop where
  settled : Settled w
  supply : v.nextObj ≤ w.nextObj
  old : ∀ b < v.nextObj, w.buf b = v.buf b

section Later

variable {u v w x : Vfs} {b : Nat}

theorem Later.refl (h : Settled v) : Later v v := ⟨h, Nat.le_refl _, fun _ _ => rfl⟩

theorem Later.trans (h : Later u v) (h' : Later v w) : Later u w :=
  ⟨h'.settled, Nat.le_trans h.supply h'.supply, fun b hb =>
    (h'.old b (Nat.lt_of_lt_of_le hb h.supply)).trans (h.old b hb)⟩

theorem later_of_untouched (h : Settled v) (hu : Untouched v w) : Later v w :=
  ⟨settled_of_untouched h hu, hu.supply, fun b _ => congrFun hu.buf b⟩

/-- Blocks come and go above the old ones. -/
theorem later_of_restored {l : List Nat} (h : Settled v) (hr : Execve.Restored v w l) : Later v w := by
  obtain ⟨hhold, hroot⟩ := hr
  refine ⟨settled_of_rootOnly h hhold.aside.nodes hroot hhold.supply fun b hb => ⟨?_, ?_⟩, hhold.supply, hhold.old⟩
  · have hnot : b ∉ l := fun hmem => absurd (hhold.fresh b hmem).2 (Nat.not_lt.mpr hb)
    exact Option.not_isSome_iff_eq_none.mp fun hs =>
      hnot ((hhold.live b (Nat.le_trans hhold.supply hb)).mp hs)
  · rw [hhold.aside.cell]
    exact (h.fresh b (Nat.le_trans hhold.supply hb)).2

/-- A store into blocks, or the end of some, leaves the file system settled. -/
theorem settled_of_buf (h : Settled v) {buf : Nat → Option Buf} (hfresh : ∀ b, v.nextObj ≤ b → buf b = none) :
    Settled { v with buf := buf } :=
  settled_of_rootOnly h rfl (.refl h.table) (Nat.le_refl _) fun b hb => ⟨hfresh b hb, (h.fresh b hb).2⟩

theorem settled_freeBuf (h : Settled v) (p : Option Nat) : Settled (v.freeBuf p) := by
  cases p with
  | none => exact h
  | some b =>
      refine settled_of_buf h fun c hc => ?_
      by_cases hcb : c = b
      · rw [hcb, Function.update_self]
      · rw [Function.update_of_ne hcb, (h.fresh c hc).1]

theorem Later.kmallocBuf (h : Later v w) {size : Nat} {p : Option Nat} (hk : w.kmallocBuf size = .ret (x, p)) :
    Later v x ∧ w.nextObj ≤ x.nextObj ∧ ∀ b, p = some b → b = w.nextObj ∧ b < x.nextObj := by
  rcases Vfs.kmallocBuf_ret hk with ⟨rfl, hu⟩ | ⟨rfl, rfl⟩
  · exact ⟨h.trans (later_of_untouched h.settled hu), hu.supply, nofun⟩
  · have hnew := (Execve.Restored.refl h.settled).kmallocBuf hk
    refine ⟨h.trans (later_of_restored h.settled hnew.1), Nat.le_succ _, fun b hb => ?_⟩
    cases hb
    exact ⟨rfl, Nat.lt_succ_self _⟩

theorem Later.kfreeBuf (h : Later v w) (hb : v.nextObj ≤ b) (hk : Execve.kfreeBuf w b = .ret x) :
    Later v x ∧ x.nextObj = w.nextObj := by
  unfold Execve.kfreeBuf at hk
  split at hk
  · cases hk
  · cases hk
    refine ⟨⟨settled_freeBuf h.settled _, h.supply, fun c hc => ?_⟩, rfl⟩
    exact (Function.update_of_ne (Nat.ne_of_lt (Nat.lt_of_lt_of_le hc hb)) _ _).trans (h.old c hc)

theorem Later.copyBytes (h : Later v w) {n : Nat} {data : Option Nat} (hb : v.nextObj ≤ b)
    (hk : w.copyBytes b data n = .ret x) : Later v x ∧ x.nextObj = w.nextObj := by
  rcases Vfs.copyBytes_ret hk with ⟨_, rfl⟩ | ⟨d, src, m, _, _, hm, rfl⟩
  · exact ⟨h, rfl⟩
  · refine ⟨⟨settled_of_buf h.settled fun c hc => ?_, h.supply, fun c hc => ?_⟩, rfl⟩
    · have hcb : c ≠ b := by
        rintro rfl
        rw [(h.settled.fresh c hc).1] at hm
        cases hm
      rw [Function.update_of_ne hcb, (h.settled.fresh c hc).1]
    · exact (Function.update_of_ne (Nat.ne_of_lt (Nat.lt_of_lt_of_le hc hb)) _ _).trans (h.old c hc)

end Later

/-- Every open file is a console file. -/
def Plain (k : Kernel) : Prop := ∀ f x, k.file f = some x → x.node = none ∧ x.pipe = none

/-- A call on its way: it has taken blocks, and no task has changed. -/
structure Went (s s₁ : State) : Prop where
  later : Later s.kernel.vfs s₁.kernel.vfs
  plain : Plain s₁.kernel
  body : s₁.body = s.body
  tasks : s₁.kernel.tasks = s.kernel.tasks

/-- The address was handed out since `v`. -/
def Since (v w : Vfs) (b : Nat) : Prop := v.nextObj ≤ b ∧ b < w.nextObj

/-- A task that was made since, which has no snapshot, and no stack of before. -/
structure Newcomer (s s' : State) (u : Nat) : Prop where
  self : Since s.kernel.vfs s'.kernel.vfs u
  snapshot : (s'.body u).imgSnapshot = none
  stack : ∀ b, (s'.body u).userStackBase = some b → Since s.kernel.vfs s'.kernel.vfs b

/-- The tasks of `s` are as they were, and there may be one more. -/
structure Grows (s s' : State) : Prop where
  later : Later s.kernel.vfs s'.kernel.vfs
  plain : Plain s'.kernel
  tasks : ∀ u ∈ s'.kernel.tasks,
    (u ∈ s.kernel.tasks ∧ (u < s.kernel.vfs.nextObj → s'.body u = s.body u)) ∨ Newcomer s s' u

@[simp] theorem State.setBody_self (s : State) (t : Nat) (b : Body) : (s.setBody t b).body t = b :=
  Function.update_self ..

section Went

variable {s s₁ s₂ : State} {b : Nat} {k : Kernel} {t : Nat}

theorem Since.mono {v w x : Vfs} (h : Since v w b) (hle : w.nextObj ≤ x.nextObj) : Since v x b :=
  ⟨h.1, Nat.lt_of_lt_of_le h.2 hle⟩

theorem Went.refl (hv : Settled s.kernel.vfs) (hp : Plain s.kernel) : Went s s := ⟨.refl hv, hp, rfl, rfl⟩

theorem Went.grows (h : Went s s₁) : Grows s s₁ :=
  ⟨h.later, h.plain, fun u hu => .inl ⟨h.tasks ▸ hu, fun _ => congrFun h.body u⟩⟩

theorem Went.kmallocBuf (h : Went s s₁) (size : Nat) : (s₁.kmallocBuf size).Ensures fun r =>
    Went s r.1 ∧ s₁.kernel.vfs.nextObj ≤ r.1.kernel.vfs.nextObj ∧
      ∀ b, r.2 = some b → Since s.kernel.vfs r.1.kernel.vfs b := by
  refine .bind (P := fun q => s₁.kernel.vfs.kmallocBuf size = .ret q) (fun _ hq => hq) fun ⟨v, p⟩ hv => .ret ?_
  obtain ⟨hlater, hle, hb⟩ := h.later.kmallocBuf hv
  refine ⟨⟨hlater, h.plain, h.body, h.tasks⟩, hle, fun b hp => ?_⟩
  obtain ⟨rfl, hlt⟩ := hb b hp
  exact ⟨h.later.supply, hlt⟩

theorem Went.kfree (h : Went s s₁) (hb : s.kernel.vfs.nextObj ≤ b) : (s₁.kfree b).Ensures (Went s) := by
  refine .bind (P := fun v => Execve.kfreeBuf s₁.kernel.vfs b = .ret v) (fun _ hq => hq) fun v hv => .ret ?_
  exact ⟨(h.later.kfreeBuf hb hv).1, h.plain, h.body, h.tasks⟩

theorem Went.withCopy (h : Went s s₁) (hb : s.kernel.vfs.nextObj ≤ b) {data : Option Nat} {n : Nat} {v : Vfs}
    (hv : s₁.kernel.vfs.copyBytes b data n = .ret v) :
    Went s (s₁.withVfs v) ∧ v.nextObj = s₁.kernel.vfs.nextObj := by
  obtain ⟨hlater, hsame⟩ := h.later.copyBytes hb hv
  exact ⟨⟨hlater, h.plain, h.body, h.tasks⟩, hsame⟩

theorem Went.copyUserStack (h : Went s s₁) (body : Body) : (copyUserStack s₁ body).Ensures fun r =>
    Went s r.1 ∧ s₁.kernel.vfs.nextObj ≤ r.1.kernel.vfs.nextObj ∧
      ∀ b, r.2 = some b → ∀ base, b.userStackBase = some base → Since s.kernel.vfs r.1.kernel.vfs base := by
  unfold Tasks.copyUserStack
  split
  · rename_i hnone
    refine .ret ⟨h, Nat.le_refl _, fun b hb base hbase => ?_⟩
    cases hb
    rw [hnone] at hbase
    cases hbase
  · rename_i base _
    refine .bind (h.kmallocBuf _) fun ⟨s₂, p⟩ ⟨h₂, hle, hp⟩ => ?_
    cases p with
    | none => exact .ret ⟨h₂, hle, nofun⟩
    | some new =>
        obtain ⟨hnew, hlt⟩ := hp new rfl
        refine .bind (P := fun v => s₂.kernel.vfs.copyBytes new (some base) (stackSize s₁ body base) = .ret v)
          (fun _ hv => hv) fun v hv => .ret ?_
        obtain ⟨h₃, hsame⟩ := h₂.withCopy hnew hv
        refine ⟨h₃, hsame ▸ hle, fun b hb c hc => ?_⟩
        cases hb
        cases hc
        exact ⟨hnew, hsame ▸ hlt⟩

/-- The files and the rest of the kernel but for slots and counts. -/
structure SameRest (k k' : Kernel) : Prop where
  vfs : k'.vfs = k.vfs
  tasks : k'.tasks = k.tasks
  plain : Plain k'

theorem Plain.setFile {f : Nat} {x : File} (h : Plain k) (hx : x.node = none ∧ x.pipe = none) : Plain (k.setFile f x) := by
  intro g y hy
  have hy : Function.update k.file f (some x) g = some y := hy
  by_cases hg : g = f
  · rw [hg, Function.update_self] at hy
    cases hy
    exact hx
  · rw [Function.update_of_ne hg] at hy
    exact h g y hy

theorem Plain.freeFile (h : Plain k) (f : Nat) (held : Held) : Plain (k.freeFile f held) := by
  intro g y hy
  have hy : Function.update k.file f none g = some y := hy
  by_cases hg : g = f
  · rw [hg, Function.update_self] at hy
    cases hy
  · rw [Function.update_of_ne hg] at hy
    exact h g y hy

theorem copyFd_same (h : Plain k) (child : Nat) (i : Fin maxFds) : (copyFd t child k i).Ensures (SameRest k) := by
  unfold copyFd
  split
  · exact .ret ⟨rfl, rfl, h⟩
  · refine .bind (fun _ hx => load_eq_ret.mp hx) fun x hx => .ret ⟨rfl, rfl, ?_⟩
    exact Plain.setFile h (h _ x hx)

theorem copyFds_same (h : Plain k) (child : Nat) (l : List (Fin maxFds)) :
    (l.foldlM (copyFd t child) k).Ensures (SameRest k) := by
  refine Exec.Ensures.foldlM (fun _ => SameRest k) (fun i rest k' hk' => ?_) ⟨rfl, rfl, h⟩
  exact (copyFd_same hk'.plain child i).mono fun k'' hk'' =>
    ⟨hk''.vfs.trans hk'.vfs, hk''.tasks.trans hk'.tasks, hk''.plain⟩

/-- A child has no snapshot of its own, and a stack of its own. -/
theorem forkTask_grows (hv : Settled s.kernel.vfs) (hp : Plain s.kernel) (t : Nat) :
    (forkTask s t).Ensures fun r => Grows s r.1 := by
  unfold Tasks.forkTask
  refine .bind ((Went.refl hv hp).kmallocBuf _) fun ⟨s₁, p⟩ ⟨h₁, _, hstack⟩ => ?_
  cases p with
  | none => exact .ret h₁.grows
  | some stack =>
      refine .bind (P := fun v => s₁.kernel.vfs.copyBytes stack (some (s.body t).stackBase) 4096 = .ret v)
        (fun _ hv => hv) fun v hcopy => ?_
      obtain ⟨h₂, _⟩ := h₁.withCopy (hstack stack rfl).1 hcopy
      refine .bind (h₂.kmallocBuf _) fun ⟨s₃, q⟩ ⟨h₃, _, hchild⟩ => ?_
      cases q with
      | none => exact .bind (h₃.kfree (hstack stack rfl).1) fun _ h₄ => .ret h₄.grows
      | some child =>
          refine .bind (h₃.copyUserStack _) fun ⟨s₄, copied⟩ ⟨h₄, hle, hbase⟩ => ?_
          cases copied with
          | none =>
              refine .bind (h₄.kfree (hstack stack rfl).1) fun _ h₅ => ?_
              refine .bind (h₅.kfree (hchild child rfl).1) fun s₆ h₆ => .ret ?_
              have h₇ : Went s { s₆ with kernel := { s₆.kernel with nextPid := u32 (s₃.kernel.nextPid + 1) } } :=
                ⟨h₆.later, h₆.plain, h₆.body, h₆.tasks⟩
              exact h₇.grows
          | some b =>
              refine .bind (copyFds_same ?_ child _) fun k hk => .ret ?_
              · exact h₄.plain
              refine ⟨hk.vfs ▸ h₄.later, hk.plain, fun u hu => ?_⟩
              have hu : u ∈ child :: s₄.kernel.tasks := (congrArg (u ∈ ·) hk.tasks).mp hu
              have hself : Since s.kernel.vfs s₄.kernel.vfs child := (hchild child rfl).mono hle
              rcases List.mem_cons.mp hu with rfl | hu
              · refine .inr ⟨hk.vfs ▸ hself, ?_, fun base hb => ?_⟩
                · rw [State.setBody_self]
                · rw [State.setBody_self] at hb
                  exact hk.vfs ▸ hbase b rfl base hb
              · refine .inl ⟨h₄.tasks ▸ hu, fun hold => ?_⟩
                rw [← h₄.body]
                exact Function.update_of_ne (Nat.ne_of_lt (Nat.lt_of_lt_of_le hold hself.1)) _ _

theorem Went.kfreeOpt (h : Went s s₁) {p : Option Nat} (hp : ∀ b, p = some b → s.kernel.vfs.nextObj ≤ b) :
    (s₁.kfreeOpt p).Ensures (Went s) := by
  cases p with
  | none => exact .ret h
  | some b => exact h.kfree (hp b rfl)

/-- The standard descriptors of a new task are console files. -/
theorem openStd_went (k₀ : Kernel) {a : Nat} {stale : Fin maxFds → SockPtr} (hk : Later s.kernel.vfs k.vfs)
    (hle : k₀.vfs.nextObj ≤ k.vfs.nextObj) (hp : Plain k) (htasks : k.tasks = k₀.tasks) (i : Fin maxFds) :
    (openStd a stale k i).Ensures fun k' =>
      Later s.kernel.vfs k'.vfs ∧ k₀.vfs.nextObj ≤ k'.vfs.nextObj ∧ Plain k' ∧ k'.tasks = k₀.tasks := by
  unfold openStd
  refine .bind (kmalloc_ensures k _) fun ⟨k₁, p⟩ ⟨v, hk₁, hu, _⟩ => ?_
  obtain rfl : k₁ = _ := hk₁
  have hlater := hk.trans (later_of_untouched hk.settled hu)
  cases p with
  | none => exact .ret ⟨hlater, Nat.le_trans hle hu.supply, hp, htasks⟩
  | some f =>
      refine .ret ⟨hlater, Nat.le_trans hle hu.supply, ?_, htasks⟩
      exact Plain.setFile hp ⟨rfl, rfl⟩

theorem createUserTask_grows (hv : Settled s.kernel.vfs) (hp : Plain s.kernel) (stale : Fin maxFds → SockPtr) :
    (createUserTask s stale).Ensures (Grows s) := by
  unfold Tasks.createUserTask
  refine .bind ((Went.refl hv hp).kmallocBuf _) fun ⟨s₁, p⟩ ⟨h₁, _, hstack⟩ => ?_
  refine .bind (h₁.kmallocBuf _) fun ⟨s₂, q⟩ ⟨h₂, _, hustack⟩ => ?_
  have hfail : (s₂.kfreeOpt p >>= fun s => s.kfreeOpt q).Ensures (Grows s) :=
    .bind (h₂.kfreeOpt fun b hb => (hstack b hb).1) fun _ h₃ =>
      (h₃.kfreeOpt fun b hb => (hustack b hb).1).mono fun _ h₄ => h₄.grows
  cases p with
  | none => exact hfail
  | some stack =>
      cases q with
      | none => exact hfail
      | some ustack =>
          refine .bind (h₂.kmallocBuf _) fun ⟨s₃, r⟩ ⟨h₃, hle₃, htask⟩ => ?_
          cases r with
          | none =>
              exact .bind (h₃.kfree (hstack stack rfl).1) fun _ h₄ =>
                (h₄.kfree (hustack ustack rfl).1).mono fun _ h₅ => h₅.grows
          | some t =>
              refine .bind (Exec.Ensures.foldlM (fun _ k => Later s.kernel.vfs k.vfs ∧
                s₃.kernel.vfs.nextObj ≤ k.vfs.nextObj ∧ Plain k ∧ k.tasks = t :: s₃.kernel.tasks)
                (fun i rest k hk => ?_) ⟨h₃.later, Nat.le_refl _, h₃.plain, rfl⟩) fun k ⟨hk, hle, hplain, htasks⟩ => ?_
              · exact openStd_went (addOwner s₃.kernel t ⟨s₃.kernel.nextPid, 0, false⟩) hk.1 hk.2.1 hk.2.2.1 hk.2.2.2 i
              have h₄ : Went { s with kernel := { s.kernel with tasks := t :: s₃.kernel.tasks } } { s₃ with kernel := k } :=
                ⟨hk, hplain, h₃.body, htasks⟩
              refine .bind (h₄.kmallocBuf _) fun ⟨s₅, heap⟩ ⟨h₅, hle₅, _⟩ => .ret ?_
              have hle' := Nat.le_trans hle hle₅
              refine ⟨h₅.later, h₅.plain, fun u hu => ?_⟩
              have hu : u ∈ t :: s₃.kernel.tasks := (congrArg (u ∈ ·) h₅.tasks).mp hu
              have hself : Since s.kernel.vfs s₅.kernel.vfs t := (htask t rfl).mono hle'
              rcases List.mem_cons.mp hu with rfl | hu
              · refine .inr ⟨hself, ?_, fun base hb => ?_⟩
                · rw [State.setBody_self]
                · rw [State.setBody_self] at hb
                  cases hb
                  exact ((hustack ustack rfl).mono hle₃).mono hle'
              · refine .inl ⟨h₃.tasks ▸ hu, fun hold => ?_⟩
                exact (Function.update_of_ne (Nat.ne_of_lt (Nat.lt_of_lt_of_le hold hself.1)) _ _).trans
                  (congrFun h₅.body u)

/-! ## The invariant -/

/-- Snapshots are as long as their tasks say; no two tasks have the same, and
no stack is one. -/
structure Remembered (s : State) : Prop where
  settled : Settled s.kernel.vfs
  plain : Plain s.kernel
  below : ∀ u ∈ s.kernel.tasks, u < s.kernel.vfs.nextObj
  stack : ∀ u ∈ s.kernel.tasks, ∀ b, (s.body u).userStackBase = some b → b < s.kernel.vfs.nextObj
  snapshot : ∀ u ∈ s.kernel.tasks, ∀ b, (s.body u).imgSnapshot = some b →
    b < s.kernel.vfs.nextObj ∧ (s.kernel.vfs.buf b).map Buf.len = some (s.body u).imgSize
  apart : ∀ u ∈ s.kernel.tasks, ∀ b, (s.body u).imgSnapshot = some b → ∀ w ∈ s.kernel.tasks,
    (s.body w).userStackBase ≠ some b ∧ ((s.body w).imgSnapshot = some b → w = u)

theorem Grows.remembered {s' : State} (h : Remembered s) (hg : Grows s s') : Remembered s' := by
  have hcases : ∀ u ∈ s'.kernel.tasks, (u ∈ s.kernel.tasks ∧ s'.body u = s.body u) ∨ Newcomer s s' u := by
    intro u hu
    rcases hg.tasks u hu with ⟨hmem, hbody⟩ | hnew
    · exact .inl ⟨hmem, hbody (h.below u hmem)⟩
    · exact .inr hnew
  -- only a task that was there has a snapshot
  have hsnap : ∀ u ∈ s'.kernel.tasks, ∀ b, (s'.body u).imgSnapshot = some b →
      u ∈ s.kernel.tasks ∧ s'.body u = s.body u ∧ (s.body u).imgSnapshot = some b := by
    intro u hu b hb
    rcases hcases u hu with ⟨hmem, hbody⟩ | hnew
    · exact ⟨hmem, hbody, hbody ▸ hb⟩
    · rw [hnew.snapshot] at hb
      cases hb
  refine ⟨hg.later.settled, hg.plain, fun u hu => ?_, fun u hu b hb => ?_, fun u hu b hb => ?_, fun u hu b hb w hw => ?_⟩
  · rcases hcases u hu with ⟨hmem, -⟩ | hnew
    · exact Nat.lt_of_lt_of_le (h.below u hmem) hg.later.supply
    · exact hnew.self.2
  · rcases hcases u hu with ⟨hmem, hbody⟩ | hnew
    · exact Nat.lt_of_lt_of_le (h.stack u hmem b (hbody ▸ hb)) hg.later.supply
    · exact (hnew.stack b hb).2
  · obtain ⟨hmem, hbody, hb⟩ := hsnap u hu b hb
    obtain ⟨hlt, hlen⟩ := h.snapshot u hmem b hb
    refine ⟨Nat.lt_of_lt_of_le hlt hg.later.supply, ?_⟩
    rw [hg.later.old b hlt, hbody]
    exact hlen
  · obtain ⟨hmem, -, hb⟩ := hsnap u hu b hb
    obtain ⟨hlt, -⟩ := h.snapshot u hmem b hb
    rcases hcases w hw with ⟨hwmem, hwbody⟩ | hnew
    · rw [hwbody]
      exact h.apart u hmem b hb w hwmem
    · refine ⟨fun hbase => absurd hlt (Nat.not_lt.mpr (hnew.stack b hbase).1), fun hsn => ?_⟩
      rw [hnew.snapshot] at hsn
      cases hsn

/-- Releasing a console file touches no block. -/
theorem releaseFd_same (h : Plain k) (i : Fin maxFds) : (releaseFd k t i).Ensures (SameRest k) := by
  unfold releaseFd
  split
  · exact .ret ⟨rfl, rfl, h⟩
  · rename_i f _
    refine .bind (fun _ hx => load_eq_ret.mp hx) fun x hx => ?_
    obtain ⟨hnode, hpipe⟩ := h f x hx
    refine .bind (P := SameRest k) ?_ fun k' hk' => .ret ⟨hk'.vfs, hk'.tasks, hk'.plain⟩
    unfold dropFile
    split
    · unfold closeFile
      dsimp only
      rw [hpipe, hnode]
      cases x.sock with
      | slot j => exact .ret ⟨rfl, rfl, Plain.freeFile h f (.sock j)⟩
      | wild => exact .undefined
      | null => exact .ret ⟨rfl, rfl, Plain.freeFile h f .console⟩
    · exact .ret ⟨rfl, rfl, Plain.setFile h ⟨hnode, hpipe⟩⟩

theorem filesExit_same (h : Plain k) : (Files.taskExit k t).Ensures (SameRest k) := by
  unfold Files.taskExit
  refine Exec.Ensures.foldlM (fun _ => SameRest k) (fun i rest k' hk' => ?_) ⟨rfl, rfl, h⟩
  exact (releaseFd_same hk'.plain i).mono fun k'' hk'' =>
    ⟨hk''.vfs.trans hk'.vfs, hk''.tasks.trans hk'.tasks, hk''.plain⟩

/-- A task that ends gives its snapshot back. -/
theorem taskExit_remembered (h : Remembered s) (ht : t ∈ s.kernel.tasks) : (taskExit s t).Ensures Remembered := by
  unfold Tasks.taskExit
  refine .bind (P := fun s₁ => s₁ = s.withVfs (s.kernel.vfs.freeBuf (s.body t).imgSnapshot)) ?_ fun s₁ hs₁ => ?_
  · cases (s.body t).imgSnapshot with
    | none => exact .ret rfl
    | some b =>
        refine .bind (P := fun v => v = s.kernel.vfs.freeBuf (some b)) (fun v hv => ?_) fun v hv => .ret (hv ▸ rfl)
        unfold Execve.kfreeBuf at hv
        split at hv
        · cases hv
        · cases hv
          rfl
  subst hs₁
  refine .bind (filesExit_same h.plain) fun k hk => .ret ?_
  have hvfs : k.vfs = s.kernel.vfs.freeBuf (s.body t).imgSnapshot := hk.vfs
  have hsup : (s.kernel.vfs.freeBuf (s.body t).imgSnapshot).nextObj = s.kernel.vfs.nextObj := by
    cases (s.body t).imgSnapshot <;> rfl
  have htasks : k.tasks = s.kernel.tasks := hk.tasks
  have hbody : ∀ u, Function.update s.body t { s.body t with imgSnapshot := none } u =
      if u = t then { s.body t with imgSnapshot := none } else s.body u := fun u => by
    by_cases hu : u = t
    · rw [hu, Function.update_self, if_pos rfl]
    · rw [Function.update_of_ne hu, if_neg hu]
  have hstack : ∀ u, (Function.update s.body t { s.body t with imgSnapshot := none } u).userStackBase =
      (s.body u).userStackBase := fun u => by
    rw [hbody]
    split
    · rename_i hu
      rw [hu]
    · rfl
  -- the snapshots that are left
  have hsnap : ∀ u b, (Function.update s.body t { s.body t with imgSnapshot := none } u).imgSnapshot = some b →
      u ≠ t ∧ (s.body u).imgSnapshot = some b := fun u b hb => by
    rw [hbody] at hb
    split at hb
    · cases hb
    · exact ⟨by assumption, hb⟩
  refine ⟨?_, hk.plain, fun u hu => ?_, fun u hu b hb => ?_, fun u hu b hb => ?_, fun u hu b hb w hw => ⟨?_, fun hw' => ?_⟩⟩
  · exact hvfs ▸ settled_freeBuf h.settled _
  · show u < k.vfs.nextObj
    rw [hvfs, hsup]
    exact h.below u (htasks ▸ hu)
  · show b < k.vfs.nextObj
    rw [hvfs, hsup]
    exact h.stack u (htasks ▸ hu) b (hstack u ▸ hb)
  · obtain ⟨hne, hb⟩ := hsnap u b hb
    obtain ⟨hlt, hlen⟩ := h.snapshot u (htasks ▸ hu) b hb
    refine ⟨?_, ?_⟩
    · show b < k.vfs.nextObj
      rw [hvfs, hsup]
      exact hlt
    · show (k.vfs.buf b).map Buf.len = some (Function.update s.body t _ u).imgSize
      rw [Function.update_of_ne hne, ← hlen, hvfs]
      congr 1
      cases hsn : (s.body t).imgSnapshot with
      | none => rfl
      | some c =>
          refine Function.update_of_ne ?_ _ _
          rintro rfl
          exact hne ((h.apart u (htasks ▸ hu) b hb t ht).2 hsn).symm
  · obtain ⟨_, hb⟩ := hsnap u b hb
    exact fun hbase => (h.apart u (htasks ▸ hu) b hb w (htasks ▸ hw)).1 ((hstack w).symm.trans hbase)
  · obtain ⟨_, hb⟩ := hsnap u b hb
    exact (h.apart u (htasks ▸ hu) b hb w (htasks ▸ hw)).2 (hsnap w b hw').2

theorem sysExit_remembered (h : Remembered s) (ht : t ∈ s.kernel.tasks) (stale : Fin maxFds → SockPtr) :
    (sysExit s t stale).Ensures Remembered := by
  refine .bind (taskExit_remembered h ht) fun s₁ h₁ => ?_
  split
  · exact (createUserTask_grows h₁.settled h₁.plain stale).mono fun _ h₂ => h₂.remembered h₁
  · exact .ret h₁

/-- What a call of `execve` of the task `t` leaves, when it starts a program. -/
structure Renewed (s s' : State) (t : Nat) : Prop where
  settled : Settled s'.kernel.vfs
  plain : Plain s'.kernel
  supply : s.kernel.vfs.nextObj ≤ s'.kernel.vfs.nextObj
  tasks : s'.kernel.tasks = s.kernel.tasks
  others : ∀ u, u ≠ t → s'.body u = s.body u
  kept : ∀ b < s.kernel.vfs.nextObj, (s.body t).userStackBase ≠ some b → s'.kernel.vfs.buf b = s.kernel.vfs.buf b
  stack : ∀ b, (s'.body t).userStackBase = some b →
    Since s.kernel.vfs s'.kernel.vfs b ∧ (s'.body t).imgSnapshot ≠ some b
  snapshot : ∀ b, (s'.body t).imgSnapshot = some b →
    (Since s.kernel.vfs s'.kernel.vfs b ∨ (s.body t).imgSnapshot = some b) ∧
      (s'.kernel.vfs.buf b).map Buf.len = some (s'.body t).imgSize

theorem Renewed.remembered {s' : State} (hr : Renewed s s' t) (h : Remembered s) (ht : t ∈ s.kernel.tasks) :
    Remembered s' := by
  -- the snapshots of the others, and the stacks
  have hother : ∀ u ∈ s'.kernel.tasks, u ≠ t → u ∈ s.kernel.tasks ∧ s'.body u = s.body u := fun u hu hne =>
    ⟨hr.tasks ▸ hu, hr.others u hne⟩
  have hold : ∀ b, (s'.body t).imgSnapshot = some b → b < s.kernel.vfs.nextObj → (s.body t).imgSnapshot = some b :=
    fun b hb hlt => (hr.snapshot b hb).1.resolve_left fun hnew => absurd hlt (Nat.not_lt.mpr hnew.1)
  refine ⟨hr.settled, hr.plain, fun u hu => ?_, fun u hu b hb => ?_, fun u hu b hb => ?_, fun u hu b hb w hw => ?_⟩
  · exact Nat.lt_of_lt_of_le (h.below u (hr.tasks ▸ hu)) hr.supply
  · by_cases hut : u = t
    · subst hut
      exact (hr.stack b hb).1.2
    · obtain ⟨hmem, hbody⟩ := hother u hu hut
      exact Nat.lt_of_lt_of_le (h.stack u hmem b (hbody ▸ hb)) hr.supply
  · by_cases hut : u = t
    · subst hut
      obtain ⟨hnew | hsn, hlen⟩ := hr.snapshot b hb
      · exact ⟨hnew.2, hlen⟩
      · exact ⟨Nat.lt_of_lt_of_le (h.snapshot u ht b hsn).1 hr.supply, hlen⟩
    · obtain ⟨hmem, hbody⟩ := hother u hu hut
      rw [hbody] at hb ⊢
      obtain ⟨hlt, hlen⟩ := h.snapshot u hmem b hb
      exact ⟨Nat.lt_of_lt_of_le hlt hr.supply, (congrArg _ (hr.kept b hlt (h.apart u hmem b hb t ht).1)).trans hlen⟩
  · by_cases hut : u = t
    · subst hut
      by_cases hwt : w = u
      · subst hwt
        exact ⟨fun hbase => (hr.stack b hbase).2 hb, fun _ => rfl⟩
      · obtain ⟨hmem, hbody⟩ := hother w hw hwt
        rw [hbody]
        rcases (hr.snapshot b hb).1 with hnew | hsn
        · exact ⟨fun hbase => absurd (h.stack w hmem b hbase) (Nat.not_lt.mpr hnew.1),
            fun hsn => absurd (h.snapshot w hmem b hsn).1 (Nat.not_lt.mpr hnew.1)⟩
        · exact h.apart u ht b hsn w hmem
    · obtain ⟨hmem, hbody⟩ := hother u hu hut
      rw [hbody] at hb
      obtain ⟨hlt, -⟩ := h.snapshot u hmem b hb
      by_cases hwt : w = t
      · subst hwt
        exact ⟨fun hbase => absurd hlt (Nat.not_lt.mpr (hr.stack b hbase).1.1),
          fun hsn => (h.apart u hmem b hb w ht).2 (hold b hsn hlt)⟩
      · obtain ⟨hwmem, hwbody⟩ := hother w hw hwt
        rw [hwbody]
        exact h.apart u hmem b hb w hwmem

theorem settled_dropOldStack {v w : Vfs} {task : Execve.Task} {parent : Option Execve.Parent} (h : Settled v)
    (hd : Execve.dropOldStack v task parent = .ret w) : Settled w ∧ w.nextObj = v.nextObj := by
  unfold Execve.dropOldStack at hd
  split at hd
  · cases hd
    exact ⟨h, rfl⟩
  · split at hd
    · cases hd
      exact ⟨h, rfl⟩
    · unfold Execve.kfreeBuf at hd
      split at hd
      · cases hd
      · cases hd
        exact ⟨settled_freeBuf h _, rfl⟩

theorem sysExecve_remembered (h : Remembered s) (ht : t ∈ s.kernel.tasks) {p : Program}
    (hg : SizesAgree s (.execve t p)) : (sysExecve s t p).Ensures fun r => Remembered r.1 := by
  have htask : (execState s t p).task = some ((s.body t).task (s.kernel.owner t).ppid) := rfl
  refine .bind (P := fun q => Execve.sysExecveImpl (execState s t p) p.path p.argv p.envp = .ret q)
    (fun _ hq => hq) fun q he => .ret ?_
  obtain ⟨e, r⟩ := q
  have hgone (w : Vfs) (hrestored : Execve.Restored s.kernel.vfs w []) :
      Remembered ((s.withVfs w).setBody t (s.body t)) := by
    have hlater := later_of_restored h.settled hrestored
    refine Grows.remembered h ⟨hlater, h.plain, fun u hu => .inl ⟨hu, fun _ => ?_⟩⟩
    exact congrFun (Function.update_eq_self t s.body) u
  rcases Execve.sysExecveImpl_spec h.settled htask he with ⟨-, hun⟩ | ⟨args, envs, -, -, ⟨-, hun⟩ | ⟨rfl, w, stack, snap, hst⟩⟩
  · rw [hun.same]
    exact hgone e.vfs hun.restored
  · rw [hun.same]
    exact hgone e.vfs hun.restored
  · obtain ⟨hhold, -⟩ := hst.restored
    have hlater := later_of_restored h.settled hst.restored
    obtain ⟨hsettled, hsup⟩ := settled_dropOldStack hlater.settled hst.old
    obtain ⟨n, htask'⟩ := hst.task
    obtain ⟨t', clearEnd, ht', hloads, hsize, hsnap⟩ :=
      Execve.execve_snapshot h.settled htask (h.stack t ht) he
    obtain rfl : _ = t' := Option.some.inj (htask'.symm.trans ht')
    have hbelow : ∀ b < s.kernel.vfs.nextObj, (s.body t).userStackBase ≠ some b →
        e.vfs.buf b = s.kernel.vfs.buf b := fun b hb hne =>
      (Execve.dropOldStack_buf hst.old hne).trans (hlater.old b hb)
    have hsince : ∀ b ∈ stack :: snap.toList, Since s.kernel.vfs e.vfs b := fun b hb => by
      obtain ⟨hle, hlt⟩ := hhold.fresh b hb
      exact ⟨hle, hsup.symm ▸ hlt⟩
    dsimp only
    rw [htask']
    refine Renewed.remembered (s := s) (t := t) ⟨hsettled, h.plain, ?_, rfl, fun u hu => ?_, hbelow, fun b hb => ?_,
      fun b hb => ?_⟩ h ht
    · exact Nat.le_trans hhold.supply (Nat.le_of_eq hsup.symm)
    · exact Function.update_of_ne hu _ _
    · rw [State.setBody_self] at hb ⊢
      obtain rfl : stack = b := Option.some.inj hb
      refine ⟨hsince stack List.mem_cons_self, fun hsn => ?_⟩
      have hsn : (snap <|> (s.body t).imgSnapshot) = some stack := hsn
      cases snap with
      | none =>
          exact absurd (h.snapshot t ht stack hsn).1 (Nat.not_lt.mpr (hhold.fresh stack List.mem_cons_self).1)
      | some c =>
          cases hsn
          exact (List.nodup_cons.mp hhold.nodup).1 List.mem_cons_self
    · rw [State.setBody_self] at hb ⊢
      have himg : (snap <|> (s.body t).imgSnapshot) = some b := hb
      have hn : n = clearEnd := hsize
      subst hn
      rcases hsnap with hsame | ⟨hnone, c, m, hc, hle, hlen, hsz⟩
      · have hb' : (s.body t).imgSnapshot = some b := hsame.symm.trans hb
        obtain ⟨hlt, hlen⟩ := h.snapshot t ht b hb'
        refine ⟨.inr hb', ?_⟩
        have hsz : Execve.snapshotSize (execState s t p) = some (s.body t).imgSize := by
          rw [Execve.snapshotSize, htask]
          dsimp only [Body.task]
          rw [hb']
          exact hlen
        refine (congrArg _ (hbelow b hlt (h.apart t ht b hb' t ht).1)).trans (hlen.trans ?_)
        exact congrArg some (hg _ hsz _ hloads).symm
      · have hcb : c = b := Option.some.inj (hc.symm.trans hb)
        subst hcb
        have hnone : (s.body t).imgSnapshot = none := hnone
        have hsn : snap = some c := by
          rw [hnone] at himg
          cases snap <;> exact himg
        refine ⟨.inl (hsince c ?_), hlen.trans (congrArg some (hg _ hsz _ hloads).symm)⟩
        rw [hsn]
        exact List.mem_cons_of_mem _ List.mem_cons_self

/-- Every step of a run. -/
theorem Remembered.step {s' : State} {e : TaskEvent} (h : Remembered s) (hg : SizesAgree s e)
    (hs : snapshotSystem.step s e s') : Remembered s' := by
  obtain ⟨hlife, hactor, hrun⟩ := hs
  cases e with
  | spawn stale => exact (createUserTask_grows h.settled h.plain stale s' hrun).remembered h
  | fork t =>
      have hfork : (TaskEvent.run s (.fork t)).Ensures (Grows s) :=
        .bind (forkTask_grows h.settled h.plain t) fun _ hr => .ret hr
      exact (hfork s' hrun).remembered h
  | execve t p =>
      have hexec : (TaskEvent.run s (.execve t p)).Ensures Remembered :=
        .bind (sysExecve_remembered h (hactor t rfl) hg) fun _ hr => .ret hr
      exact hexec s' hrun
  | exit t stale => exact sysExit_remembered h (hactor t rfl) stale s' hrun
  | _ => cases hlife

theorem remembered_of_reach (h : snapshotSystem.ReachVia SizesAgree s) : Remembered s := by
  refine h.invariant (fun s hs => ?_) fun s e s' hr hg hs => hr.step hg hs
  obtain ⟨htasks, hv, hfile⟩ := hs
  have hnone : ∀ u, u ∉ s.kernel.tasks := fun u hu => by
    rw [htasks] at hu
    cases hu
  refine ⟨hv, fun f x hx => ?_, fun u hu => absurd hu (hnone u), fun u hu => absurd hu (hnone u),
    fun u hu => absurd hu (hnone u), fun u hu => absurd hu (hnone u)⟩
  rw [hfile] at hx
  cases hx

/-- As long as the images agree, a snapshot is as long as its task says, and
`task_exit` restores all of it and no more. -/
theorem snapshot_length_remembered (h : snapshotSystem.ReachVia SizesAgree s) {b : Nat} (ht : t ∈ s.kernel.tasks)
    (hb : (s.body t).imgSnapshot = some b) : ∃ m, s.kernel.vfs.buf b = some m ∧ m.len = (s.body t).imgSize ∧
      ∀ mem, ∃ mem', restoreLoop m (s.body t).imgSize 0 mem = .ret mem' := by
  obtain ⟨-, hlen⟩ := (remembered_of_reach h).snapshot t ht b hb
  obtain ⟨m, hm, hlen⟩ := Option.map_eq_some_iff.mp hlen
  refine ⟨m, hm, hlen, fun mem => ?_⟩
  rw [restoreLoop_ret (Nat.zero_le _), hlen, Nat.zero_add]

end Went

/-! ## A family with two programs -/

/-- A program of 32 bytes. -/
def largeImage : List UInt8 :=
  (Execve.imageOf [127, 69, 76, 70]).set 72 32

/-- The file system with the programs `/a`, of 16 bytes, and `/b`. -/
def twoPrograms : Vfs :=
  Execve.afterCalls [.openPath rootCaller (str "/a") 0x40, .write 1 0 (Execve.imageOf [127, 69, 76, 70]), .close 1,
    .openPath rootCaller (str "/b") 0x40, .write 3 0 largeImage, .close 3]

/-- A machine with these programs, and no task yet. -/
def familyMachine : State where
  kernel := { Files.quietKernel with vfs := twoPrograms }
  body _ := ⟨0, 0, 0, none, 0, 0, none, [], []⟩
  place := Execve.sideBySide

/-- A program that starts the program with this name. -/
def starts (name : CStr) : Program where
  mem a := if Execve.userLoadAddr ≤ a then (name[a - Execve.userLoadAddr]?).getD 0 else 0
  frame := ⟨0, 0, 0, 0, 0⟩
  caller _ := rootCaller
  path := Execve.userLoadAddr
  argv := 0
  envp := 0

/-- Several events in a row, under a guard. -/
def runTasks (G : State → TaskEvent → Prop) [∀ s e, Decidable (G s e)] (s : State) : List TaskEvent → Exec State
  | [] => .ret s
  | e :: es =>
      if (∀ t ∈ e.actor, t ∈ s.kernel.tasks) ∧ G s e then do
        let s ← e.run s
        runTasks G s es
      else .undefined

instance (s : State) : (e : TaskEvent) → Decidable (SizesAgree s e)
  | .execve t p => inferInstanceAs (Decidable (∀ n ∈ Execve.snapshotSize (execState s t p),
      ∀ clearEnd ∈ Execve.imageEnd s.kernel.vfs (Execve.imageSource (execState s t p) p.path), clearEnd = n))
  | .files _ | .spawn _ | .fork _ | .exit .. | .kill .. | .wait .. | .mmap .. | .munmap .. =>
      inferInstanceAs (Decidable True)

theorem reach_runTasks {G : State → TaskEvent → Prop} [∀ s e, Decidable (G s e)] {s s' : State} {es : List TaskEvent}
    (h : snapshotSystem.ReachVia G s) (hes : ∀ e ∈ es, LifeCycle e) (hrun : runTasks G s es = .ret s') :
    snapshotSystem.ReachVia G s' := by
  induction es generalizing s with
  | nil =>
      cases hrun
      exact h
  | cons e es ih =>
      rw [runTasks] at hrun
      split at hrun
      · rename_i hok
        obtain ⟨s₁, hs₁, hrun⟩ := Exec.bind_eq_ret.mp hrun
        exact ih (.step h hok.2 ⟨hes e List.mem_cons_self, hok.1, hs₁⟩)
          (fun e' he' => hes e' (List.mem_cons_of_mem e he')) hrun
      · cases hrun

/-- A shell that runs `/a`, and its child, which starts the program `name`. -/
def familyRun (name : CStr) : List TaskEvent :=
  [.spawn fun _ => .null, .execve 7 (starts (str "/a")), .fork 7, .execve 14 (starts name)]

theorem settled_twoPrograms : Settled twoPrograms := Execve.settled_afterCalls

/-- What can be said of the child, behind such a run. -/
def childIs (check : State → Nat → Bool) (x : Exec State) : Bool :=
  match x with
  | .ret s => 14 ∈ s.kernel.tasks ∧ (s.body 14).imgSnapshot.any (check s)
  | _ => false

theorem exists_child (G : State → TaskEvent → Prop) [∀ s e, Decidable (G s e)] (name : CStr)
    (check : State → Nat → Bool) (h : childIs check (runTasks G familyMachine (familyRun name)) = true) :
    ∃ s b, snapshotSystem.ReachVia G s ∧ 14 ∈ s.kernel.tasks ∧ (s.body 14).imgSnapshot = some b ∧
      check s b = true := by
  unfold childIs at h
  split at h
  · rename_i s hrun
    obtain ⟨hmem, hany⟩ := of_decide_eq_true h
    cases hb : (s.body 14).imgSnapshot with
    | none =>
        rw [hb] at hany
        cases hany
    | some b =>
        rw [hb] at hany
        refine ⟨s, b, reach_runTasks (.init ⟨rfl, settled_twoPrograms, fun _ => rfl⟩) (fun e he => ?_) hrun, hmem, hb,
          hany⟩
        simp only [familyRun, List.mem_cons, List.not_mem_nil, or_false] at he
        rcases he with rfl | rfl | rfl | rfl <;> trivial
  · cases h

/-- A child that runs the program of its parent restores all of it. -/
theorem child_restores_all : ∃ (s : State) (b : Nat) (m : Buf), 14 ∈ s.kernel.tasks ∧ (s.body 14).imgSnapshot = some b ∧
    s.kernel.vfs.buf b = some m ∧ m.len = (s.body 14).imgSize ∧
      ∀ mem, ∃ mem', restoreLoop m (s.body 14).imgSize 0 mem = .ret mem' := by
  obtain ⟨s, b, hreach, ht, hb, -⟩ := exists_child SizesAgree (str "/a") (fun _ _ => true) (by decide +kernel)
  obtain ⟨m, hm, hlen, hrest⟩ := snapshot_length_remembered hreach ht hb
  exact ⟨s, b, m, ht, hb, hm, hlen, hrest⟩

/-- A child that runs a larger program has a snapshot of 16 bytes, and takes it
for one of 32. -/
theorem larger_child_restores_more : ¬∀ s t b, snapshotSystem.Reach s → t ∈ s.kernel.tasks →
    (s.body t).imgSnapshot = some b → ∃ m, s.kernel.vfs.buf b = some m ∧ m.len = (s.body t).imgSize ∧
      ∀ mem, ∃ mem', restoreLoop m (s.body t).imgSize 0 mem = .ret mem' := by
  intro hall
  obtain ⟨s, b, hreach, ht, hb, hcheck⟩ := exists_child (fun _ _ => True) (str "/b")
    (fun s b => (s.kernel.vfs.buf b).map Buf.len = some 16 ∧ (s.body 14).imgSize = 32) (by decide +kernel)
  obtain ⟨hlen, hsize⟩ := of_decide_eq_true hcheck
  obtain ⟨m, hm, hsame, -⟩ := hall s 14 b hreach ht hb
  rw [hm, Option.map_some, hsame, hsize] at hlen
  cases hlen

end LiteBSD.Tasks
