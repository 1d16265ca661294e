/-
# `LiteBSD.Tasks.Children` — a child from `fork` to `wait4`

A shell makes a child for every command.  The kernel stack, the `task_t` and
the copy of the user stack come from `fork`, a new stack and the snapshot from
`execve`, any number of times; the snapshot goes back in `exit`, the rest in
`wait4`, each under a test whether it is shared.  `Child` says at every moment
which blocks are on top of those of before (`owned`), and at the end there are
none (`life_cycle_neutral`), in whatever state the parent was.

The child of a task with the pid 0 is the exception, since `sys_exit` takes it
for a shell.
-/
import LiteBSD.Tasks.Housed
import LiteBSD.Tasks.Charges

namespace LiteBSD.Tasks

open Lib Files

/-- A call on its way: it has the blocks `l` on top, and no task, file or
descriptor has changed. -/
structure Aloft (s s₁ : State) (l : List Nat) : Prop where
  grown : Grown s s₁ l
  rest : s₁.kernel = { s.kernel with vfs := s₁.kernel.vfs, nextPid := s₁.kernel.nextPid }
  body : s₁.body = s.body

section Life

variable {s s₁ : State} {l : List Nat} {b t : Nat}

theorem Grown.settled (h : Grown s s₁ l) (hv : Settled s.kernel.vfs) : Settled s₁.kernel.vfs :=
  (later_of_restored hv h.blocks).settled

namespace Aloft

theorem refl (hv : Settled s.kernel.vfs) : Aloft s s [] := ⟨.refl hv, rfl, rfl⟩

theorem perm {l' : List Nat} (h : Aloft s s₁ l) (hp : l.Perm l') : Aloft s s₁ l' := ⟨h.grown.perm hp, h.rest, h.body⟩

theorem withVfs (h : Aloft s s₁ l) {v : Vfs} {l' : List Nat} (hv : Execve.Restored s.kernel.vfs v l') :
    Aloft s (s₁.withVfs v) l' := by
  refine ⟨h.grown.withVfs hv, ?_, h.body⟩
  show ({ s₁.kernel with vfs := v } : Kernel) = _
  rw [h.rest]
  rfl

theorem kmallocBuf (h : Aloft s s₁ l) (size : Nat) : (s₁.kmallocBuf size).Ensures fun r =>
    match r.2 with
      | none => Aloft s r.1 l
      | some b => Aloft s r.1 (b :: l) := by
  refine .bind (P := fun q => s₁.kernel.vfs.kmallocBuf size = .ret q) (fun _ hq => hq) fun q hv => .ret ?_
  obtain ⟨v, p⟩ := q
  have hr := h.grown.blocks.kmallocBuf hv
  cases p with
  | none => exact h.withVfs hr
  | some b => exact h.withVfs hr.1

theorem copyBytes (h : Aloft s s₁ l) (hb : b ∈ l) {data : Option Nat} {n : Nat} {v : Vfs}
    (hv : s₁.kernel.vfs.copyBytes b data n = .ret v) : Aloft s (s₁.withVfs v) l :=
  h.withVfs (h.grown.blocks.copyBytes hb hv).1

theorem kfree (h : Aloft s s₁ l) (hb : b ∈ l) : ∃ s', s₁.kfree b = .ret s' ∧ Aloft s s' (l.erase b) := by
  obtain ⟨v, hfree, hv, -⟩ := h.grown.blocks.kfreeBuf hb
  refine ⟨s₁.withVfs v, ?_, h.withVfs hv⟩
  rw [State.kfree, hfree]
  rfl

theorem setPid (h : Aloft s s₁ l) (pid : Nat) : Aloft s { s₁ with kernel := { s₁.kernel with nextPid := pid } } l := by
  refine ⟨⟨h.grown.blocks, h.grown.file, h.grown.pipe, h.grown.block, h.grown.place⟩, ?_, h.body⟩
  dsimp only
  rw [h.rest]

end Aloft

/-! ## `fork` -/

/-- The task `c` was forked by `t`, in the state `s`.  Since then it has done
nothing but start programs. -/
structure Child (s s₁ : State) (t c : Nat) : Prop where
  grown : Grown s s₁ (owned s₁ c)
  counted : CountedBesides s₁.kernel c (List.finRange maxFds)
  tasks : s₁.kernel.tasks = c :: s.kernel.tasks
  parent : (s₁.kernel.owner c).ppid = (s.kernel.owner t).pid
  owner : ∀ u, u ≠ c → s₁.kernel.owner u = s.kernel.owner u
  body : ∀ u, u ≠ c → s₁.body u = s.body u

namespace Child

variable {c : Nat}

theorem fresh (h : Child s s₁ t c) {b : Nat} (hb : b ∈ owned s₁ c) :
    s.kernel.vfs.nextObj ≤ b ∧ b < s₁.kernel.vfs.nextObj := h.grown.blocks.1.fresh b hb

/-- No task of before is the child. -/
theorem ne (h : Child s s₁ t c) (hs : Housed s) {u : Nat} (hu : u ∈ s.kernel.tasks) : u ≠ c :=
  Nat.ne_of_lt (Nat.lt_of_lt_of_le (hs.task u hu) (h.fresh List.mem_cons_self).1)

theorem housed (h : Child s s₁ t c) (hs : Housed s) : Housed s₁ := by
  have hsup := h.grown.blocks.1.supply
  refine ⟨⟨h.grown.settled hs.steady.vfs, fun f x hx => ⟨?_, ?_⟩, fun p hp => ?_, rfl, Nat.le_refl _, fun b hb => ?_⟩,
    fun u hu b hb => ?_⟩
  · have hold : (s.kernel.file f).isSome = true := by
      rw [← h.grown.file f, hx]
      rfl
    obtain ⟨y, hy⟩ := Option.isSome_iff_exists.mp hold
    exact Nat.lt_of_lt_of_le (hs.steady.file f y hy).1 hsup
  · have hcount := h.counted.counts f x hx
    omega
  · rw [h.grown.pipe] at hp
    exact Nat.lt_of_lt_of_le (hs.steady.pipe p hp) hsup
  · rw [h.grown.block] at hb
    exact Nat.lt_of_lt_of_le (hs.steady.block b hb) hsup
  · rw [h.tasks] at hu
    rcases List.mem_cons.mp hu with rfl | hu
    · exact (h.fresh hb).2
    · rw [owned, h.body u (h.ne hs hu)] at hb
      exact Nat.lt_of_lt_of_le (hs.below u hu b hb) hsup

end Child

/-- The copy of the user stack is on top. -/
theorem Aloft.copyUserStack (h : Aloft s s₁ l) (b : Body) : (copyUserStack s₁ b).Ensures fun r =>
    match r.2 with
      | none => Aloft s r.1 l
      | some b' => Aloft s r.1 (b'.userStackBase.toList ++ l) := by
  unfold Tasks.copyUserStack
  split
  · rename_i hnone
    refine .ret ?_
    dsimp only
    rw [hnone]
    exact h
  · rename_i base _
    refine .bind (h.kmallocBuf _) fun q hq => ?_
    obtain ⟨s₂, p⟩ := q
    cases p with
    | none => exact .ret hq
    | some new =>
        refine .bind (P := fun v => s₂.kernel.vfs.copyBytes new (some base) (stackSize s₁ b base) = .ret v)
          (fun _ hv => hv) fun v hv => .ret ?_
        exact Aloft.copyBytes hq List.mem_cons_self hv

/-- The child of a fork, or none. -/
theorem forkTask_spec (hs : Housed s) (ht : t ∈ s.kernel.tasks) :
    (forkTask s t).Ensures fun r => Aloft s r.1 [] ∨ ∃ c, Child s r.1 t c := by
  unfold Tasks.forkTask
  refine .bind ((Aloft.refl hs.steady.vfs).kmallocBuf _) fun q h₁ => ?_
  obtain ⟨s₁, p⟩ := q
  cases p with
  | none => exact .ret (.inl h₁)
  | some stack =>
      refine .bind (P := fun v => s₁.kernel.vfs.copyBytes stack (some (s.body t).stackBase) 4096 = .ret v)
        (fun _ hv => hv) fun v hcopy => ?_
      have h₂ := Aloft.copyBytes h₁ List.mem_cons_self hcopy
      refine .bind (h₂.kmallocBuf _) fun q h₃ => ?_
      obtain ⟨s₃, p⟩ := q
      cases p with
      | none =>
          obtain ⟨s₄, hs₄, h₄⟩ := Aloft.kfree h₃ (b := stack) List.mem_cons_self
          dsimp only
          rw [hs₄, Exec.ret_bind]
          rw [List.erase_cons_head] at h₄
          exact .ret (.inl h₄)
      | some child =>
          refine .bind (Aloft.copyUserStack h₃ (s.body t)) fun q h₄ => ?_
          obtain ⟨s₄, copied⟩ := q
          cases copied with
          | none =>
              obtain ⟨s₅, hs₅, h₅⟩ := (Aloft.perm h₄ (.swap stack child [])).kfree List.mem_cons_self
              rw [List.erase_cons_head] at h₅
              obtain ⟨s₆, hs₆, h₆⟩ := h₅.kfree List.mem_cons_self
              rw [List.erase_cons_head] at h₆
              dsimp only
              rw [hs₅, Exec.ret_bind, hs₆, Exec.ret_bind]
              exact .ret (.inl (h₆.setPid _))
          | some b =>
              obtain ⟨hgrown, hrest, hbody⟩ := h₄
              have hchild : s.kernel.vfs.nextObj ≤ child := (hgrown.blocks.1.fresh child (by simp)).1
              have hne : t ≠ child := Nat.ne_of_lt (Nat.lt_of_lt_of_le (hs.task t ht) hchild)
              have hpos : ∀ f x, s₄.kernel.file f = some x → 0 < x.refCount := by
                rw [hrest]
                exact fun f x hx => (hs.steady.file f x hx).2
              refine .bind (copyFds hne) fun k hk => .ret (.inr ⟨child, ?_⟩)
              have hperm : (b.userStackBase.toList ++ [child, stack]).Perm
                  (child :: stack :: (b.userStackBase.toList ++ [])) := by
                rw [List.append_nil]
                exact List.perm_append_comm
              refine ⟨?_, hk.countedBesides hpos, ?_, ?_, fun u hu => ?_, fun u hu => ?_⟩
              · rw [owned, State.setBody_self]
                have hg := (hgrown.perm hperm)
                refine ⟨?_, fun f => ?_, ?_, ?_, hg.place⟩
                · show Execve.Restored s.kernel.vfs k.vfs _
                  rw [hk.rest]
                  exact hg.blocks
                · exact (hk.file f).trans (hg.file f)
                · show k.pipe = _
                  rw [hk.rest]
                  exact hg.pipe
                · show k.block = _
                  rw [hk.rest]
                  exact hg.block
              · show k.tasks = _
                rw [hk.rest, hrest]
                rfl
              · show (k.owner child).ppid = _
                rw [hk.rest]
                show (Function.update s₄.kernel.owner child _ child).ppid = _
                rw [Function.update_self, hrest]
              · show k.owner u = _
                rw [hk.rest]
                show Function.update s₄.kernel.owner child _ u = _
                rw [Function.update_of_ne hu, hrest]
              · show Function.update s₄.body child _ u = _
                rw [Function.update_of_ne hu, hbody]

/-! ## `execve` -/

/-- A program that was started: its stack is new, and the snapshot is new or
the one that was there; the old stack is given back unless it is the one of
the task that is found for the parent. -/
theorem sysExecve_started (hv : Settled s.kernel.vfs) {s' : State} {p : Program}
    (he : sysExecve s t p = .ret (s', 0)) : ∃ w stack snap,
      Execve.Restored s.kernel.vfs w (stack :: snap.toList) ∧
      Execve.dropOldStack w ((s.body t).task (s.kernel.owner t).ppid) (execState s t p).parent =
        .ret s'.kernel.vfs ∧
      (snap ≠ none → (s.body t).imgSnapshot = none) ∧
      s' = (s.withVfs s'.kernel.vfs).setBody t (s'.body t) ∧ (s'.body t).stackBase = (s.body t).stackBase ∧
      (s'.body t).userStackBase = some stack ∧ (s'.body t).imgSnapshot = (snap <|> (s.body t).imgSnapshot) := by
  obtain ⟨⟨e, r⟩, he, hs'⟩ := Exec.bind_eq_ret.mp he
  have htask : (execState s t p).task = some ((s.body t).task (s.kernel.owner t).ppid) := rfl
  cases hs'
  rcases Execve.sysExecveImpl_spec hv htask he with ⟨hr, -⟩ | ⟨args, envs, -, -, ⟨hr, -⟩ | ⟨-, w, stack, snap, hst⟩⟩
  · cases hr
  · cases hr
  · obtain ⟨n, htask'⟩ := hst.task
    refine ⟨w, stack, snap, hst.restored, hst.old, hst.snapshot, ?_, ?_⟩
    · rw [State.setBody_self]
      rfl
    · rw [State.setBody_self, htask']
      exact ⟨rfl, rfl, rfl⟩

/-- The parent is the oldest task with its pid, or an older one has it. -/
theorem findTask_mem {k : Kernel} {c : Nat} {l : List Nat} (htasks : k.tasks = c :: l) (ht : t ∈ l) :
    ∃ q ∈ l, findTask k (k.owner t).pid = some q := by
  have hsome : (l.reverse.find? fun q => (k.owner q).pid = (k.owner t).pid).isSome :=
    List.find?_isSome.mpr ⟨t, List.mem_reverse.mpr ht, decide_eq_true rfl⟩
  obtain ⟨q, hq⟩ := Option.isSome_iff_exists.mp hsome
  refine ⟨q, List.mem_reverse.mp (List.mem_of_find?_eq_some hq), ?_⟩
  rw [findTask, htasks, List.reverse_cons, List.find?_append, hq]
  rfl

/-- A child that starts a program. -/
theorem Child.execve {c : Nat} {s₂ : State} {p : Program} (h : Child s s₁ t c) (hs : Housed s)
    (ht : t ∈ s.kernel.tasks) (he : sysExecve s₁ c p = .ret (s₂, 0)) : Child s s₂ t c := by
  obtain ⟨w, stack, snap, hrestored, hdrop, hsnap, hsame, hkstack, hustack, himg⟩ :=
    sysExecve_started (h.housed hs).steady.vfs he
  have hkernel : s₂.kernel = { s₁.kernel with vfs := s₂.kernel.vfs } := congrArg State.kernel hsame
  have hothers : ∀ u, u ≠ c → s₂.body u = s₁.body u := fun u hu => by
    rw [hsame]
    exact Function.update_of_ne hu _ _
  have hall := h.grown.blocks.trans hrestored
  -- the old stack is not the one of the parent
  have hblocks : Execve.Restored s.kernel.vfs s₂.kernel.vfs (owned s₂ c) := by
    have himgs : (snap.toList ++ (s₁.body c).imgSnapshot.toList).Perm (s₂.body c).imgSnapshot.toList := by
      rw [himg]
      cases snap with
      | none => exact .refl _
      | some b =>
          rw [hsnap (Option.some_ne_none b)]
          exact .refl _
    unfold Execve.dropOldStack at hdrop
    rw [owned] at hall ⊢
    rw [hkstack, hustack]
    split at hdrop
    · rename_i hnone
      have hnone : (s₁.body c).userStackBase = none := hnone
      cases hdrop
      rw [hnone] at hall
      refine ⟨hall.1.perm (List.perm_iff_count.mpr fun x => ?_), hall.2⟩
      have hcount := himgs.count_eq x
      simp only [List.count_append, List.count_cons, Option.toList_none, Option.toList_some, List.count_nil] at hcount ⊢
      omega
    · rename_i old hold
      have hold : (s₁.body c).userStackBase = some old := hold
      have hnew : s.kernel.vfs.nextObj ≤ old := (h.fresh (by simp [owned, hold])).1
      obtain ⟨q, hq, hfind⟩ := findTask_mem (k := s₁.kernel) h.tasks ht
      have hppid : (s₁.kernel.owner c).ppid = (s₁.kernel.owner t).pid := by
        rw [h.parent, h.owner t (h.ne hs ht)]
      have hshared : ¬(((s₁.body c).task (s₁.kernel.owner c).ppid).ppid ≠ 0 ∧
          ((execState s₁ c p).parent.any fun p => p.userStackBase = some old) = true) := by
        rintro ⟨-, hany⟩
        have hparent : (execState s₁ c p).parent = some ⟨(s₁.body q).imgSize, (s₁.body q).userStackBase⟩ := by
          show (findTask s₁.kernel (s₁.kernel.owner c).ppid).map _ = _
          rw [hppid, hfind]
          rfl
        rw [hparent, Option.any_some, decide_eq_true_eq] at hany
        have hbase : (s.body q).userStackBase = some old := h.body q (h.ne hs hq) ▸ hany
        exact absurd (hs.stack q hq old hbase) (Nat.not_lt.mpr hnew)
      rw [if_neg hshared] at hdrop
      rw [hold] at hall
      have hfront : (stack :: snap.toList ++ c :: (s₁.body c).stackBase ::
          ((some old).toList ++ (s₁.body c).imgSnapshot.toList)).Perm (old :: c :: (s₁.body c).stackBase ::
            ((some stack).toList ++ (s₂.body c).imgSnapshot.toList)) := by
        refine List.perm_iff_count.mpr fun x => ?_
        have hcount := himgs.count_eq x
        simp only [List.count_append, List.count_cons, Option.toList_some, List.count_nil] at hcount ⊢
        omega
      obtain ⟨hhold, hfreed⟩ := Execve.kfreeBuf_spec (hall.1.perm hfront) hdrop
      exact ⟨hhold, hfreed.node.symm ▸ hall.2⟩
  refine ⟨⟨hblocks, fun f => ?_, ?_, ?_, ?_⟩, ?_, ?_, ?_, fun u hu => ?_, fun u hu => (hothers u hu).trans (h.body u hu)⟩
  · rw [hkernel]
    exact h.grown.file f
  · rw [hkernel]
    exact h.grown.pipe
  · rw [hkernel]
    exact h.grown.block
  · rw [hsame]
    exact h.grown.place
  · rw [hkernel]
    exact ⟨h.counted.live, h.counted.counts⟩
  · rw [hkernel]
    exact h.tasks
  · rw [hkernel]
    exact h.parent
  · rw [hkernel]
    exact h.owner u hu

/-! ## The end -/

/-- A task on its way out, before it gives its files back: its children are
those of its parent. -/
def exiting (k : Kernel) (c : Nat) : Kernel :=
  let k := { k with owner := Function.update k.owner c { k.owner c with zombie := true } }
  { k with
    owner := fun u =>
      if (k.owner u).ppid = (k.owner c).pid then { k.owner u with ppid := (k.owner c).ppid } else k.owner u }

theorem taskExit_eq (k : Kernel) (c : Nat) :
    Files.taskExit k c = (List.finRange maxFds).foldlM (fun k i => releaseFd k c i) (exiting k c) := rfl

theorem exiting_pid (k : Kernel) (c u : Nat) : ((exiting k c).owner u).pid = (k.owner u).pid := by
  have hpid : (Function.update k.owner c { k.owner c with zombie := true } u).pid = (k.owner u).pid := by
    by_cases hu : u = c
    · rw [hu, Function.update_self]
    · rw [Function.update_of_ne hu]
  unfold exiting
  dsimp only
  split
  · exact hpid
  · exact hpid

/-- It is a zombie, and still the child of its parent. -/
theorem exiting_self (k : Kernel) (c : Nat) :
    ((exiting k c).owner c).ppid = (k.owner c).ppid ∧ ((exiting k c).owner c).zombie = true := by
  have hself : Function.update k.owner c { k.owner c with zombie := true } c = { k.owner c with zombie := true } :=
    Function.update_self ..
  unfold exiting
  dsimp only
  split
  · rw [hself]
    exact ⟨rfl, rfl⟩
  · rw [hself]
    exact ⟨rfl, rfl⟩

/-- The child has ended. -/
structure Ended (s s₁ : State) (t c : Nat) : Prop where
  grown : Grown s s₁ (owned s₁ c)
  snapshot : (s₁.body c).imgSnapshot = none
  tasks : s₁.kernel.tasks = c :: s.kernel.tasks
  zombie : (s₁.kernel.owner c).zombie = true
  parent : (s₁.kernel.owner c).ppid = (s₁.kernel.owner t).pid
  body : ∀ u, u ≠ c → s₁.body u = s.body u

/-- The child gives back its snapshot, and frees no file. -/
theorem Child.exit {c : Nat} (h : Child s s₁ t c) (hs : Housed s) (ht : t ∈ s.kernel.tasks) :
    ∃ s₂, taskExit s₁ c = .ret s₂ ∧ Ended s s₂ t c ∧ s₂.kernel.nextPid = s₁.kernel.nextPid := by
  -- the snapshot
  obtain ⟨s₂, hfree, hg, hbody, hkernel⟩ : ∃ s₂, s₁.kfreeOpt (s₁.body c).imgSnapshot = .ret s₂ ∧
      Grown s s₂ (c :: (s₁.body c).stackBase :: (s₁.body c).userStackBase.toList) ∧ s₂.body = s₁.body ∧
      s₂.kernel = { s₁.kernel with vfs := s₂.kernel.vfs } := by
    have hg := h.grown
    rw [owned] at hg
    cases himg : (s₁.body c).imgSnapshot with
    | none =>
        rw [himg, Option.toList_none, List.append_nil] at hg
        exact ⟨s₁, rfl, hg, rfl, rfl⟩
    | some b =>
        rw [himg] at hg
        have hperm : (c :: (s₁.body c).stackBase :: ((s₁.body c).userStackBase.toList ++ (some b).toList)).Perm
            (b :: c :: (s₁.body c).stackBase :: (s₁.body c).userStackBase.toList) := by
          refine List.perm_iff_count.mpr fun x => ?_
          simp only [List.count_append, List.count_cons, Option.toList_some, List.count_nil]
          omega
        obtain ⟨s₂, hs₂, hg₂, hrest⟩ := (hg.perm hperm).kfree List.mem_cons_self
        rw [List.erase_cons_head] at hg₂
        exact ⟨s₂, hs₂, hg₂, hrest⟩
  have hcounted : CountedBesides s₂.kernel c (List.finRange maxFds) := by
    rw [hkernel]
    exact ⟨h.counted.live, h.counted.counts⟩
  obtain ⟨k, hk, hsame, -, hfile, -⟩ :=
    releaseAll_shared (k := exiting s₂.kernel c) (List.nodup_finRange maxFds) ⟨hcounted.live, hcounted.counts⟩
  have hne : t ≠ c := h.ne hs ht
  refine ⟨{ s₂.setBody c { s₂.body c with imgSnapshot := none } with kernel := k }, ?_, ?_, ?_⟩
  · rw [taskExit, hfree, Exec.ret_bind]
    dsimp only
    rw [taskExit_eq]
    show ((List.finRange maxFds).foldlM (fun k i => releaseFd k c i) (exiting s₂.kernel c) >>= _) = _
    rw [hk]
    rfl
  · have hvfs : k.vfs = s₂.kernel.vfs := by rw [hsame]; rfl
    have howner : k.owner = (exiting s₂.kernel c).owner := by rw [hsame]
    refine ⟨?_, ?_, ?_, ?_, ?_, fun u hu => ?_⟩
    · rw [owned, State.setBody_self]
      refine ⟨?_, fun f => (hfile f).trans (hg.file f), ?_, ?_, hg.place⟩
      · show Execve.Restored s.kernel.vfs k.vfs _
        rw [hvfs, hbody, Option.toList_none, List.append_nil]
        exact hg.blocks
      · show k.pipe = _
        rw [hsame]
        exact hg.pipe
      · show k.block = _
        rw [hsame]
        exact hg.block
    · rw [State.setBody_self]
    · show k.tasks = _
      rw [hsame]
      show s₂.kernel.tasks = _
      rw [hkernel]
      exact h.tasks
    · show (k.owner c).zombie = true
      rw [howner, (exiting_self _ c).2]
    · show (k.owner c).ppid = (k.owner t).pid
      rw [howner, (exiting_self _ c).1, exiting_pid, hkernel]
      exact h.parent.trans (congrArg Owner.pid (h.owner t hne)).symm
    · show Function.update s₂.body c _ u = _
      rw [Function.update_of_ne hu, hbody]
      exact h.body u hu
  · show k.nextPid = _
    rw [hsame]
    show s₂.kernel.nextPid = _
    rw [hkernel]

/-- What the parent has again, once it has waited for the child. -/
structure Reaped (s s₁ : State) (c : Nat) : Prop where
  grown : Grown s s₁ []
  tasks : s₁.kernel.tasks = s.kernel.tasks
  body : ∀ u, u ≠ c → s₁.body u = s.body u

/-- The parent gives back all that the child has left. -/
theorem Ended.wait {c : Nat} (h : Ended s s₁ t c) (hs : Housed s) (ht : t ∈ s.kernel.tasks) :
    ∃ s₂, wait4 s₁ t c = .ret s₂ ∧ Reaped s s₂ c ∧ s₂.kernel = { s₁.kernel with
      vfs := s₂.kernel.vfs, tasks := s.kernel.tasks } := by
  have hcond : c ∈ s₁.kernel.tasks ∧ (s₁.kernel.owner c).zombie ∧
      (s₁.kernel.owner c).ppid = (s₁.kernel.owner t).pid :=
    ⟨h.tasks ▸ List.mem_cons_self, h.zombie, h.parent⟩
  have hwait : Files.wait4 s₁.kernel t c = .ret { s₁.kernel with tasks := s.kernel.tasks } := by
    rw [Files.wait4, if_pos hcond, h.tasks, List.erase_cons_head]
  have hne : t ≠ c := Nat.ne_of_lt (Nat.lt_of_lt_of_le (hs.task t ht) (h.grown.blocks.1.fresh c List.mem_cons_self).1)
  -- the stack of the child is not the one of the parent
  have hstack : (if (s₁.body c).userStackBase = (s₁.body t).userStackBase then none else (s₁.body c).userStackBase) =
      (s₁.body c).userStackBase := by
    split
    · rename_i heq
      cases hbase : (s₁.body c).userStackBase with
      | none => rfl
      | some b =>
          have hnew : s.kernel.vfs.nextObj ≤ b := (h.grown.blocks.1.fresh b (by simp [owned, hbase])).1
          rw [hbase, h.body t hne] at heq
          exact absurd (hs.stack t ht b heq.symm) (Nat.not_lt.mpr hnew)
    · rfl
  have hg : Grown s { s₁ with kernel := { s₁.kernel with tasks := s.kernel.tasks } }
      (owned s₁ c) := ⟨h.grown.blocks, h.grown.file, h.grown.pipe, h.grown.block, h.grown.place⟩
  rw [owned, h.snapshot, Option.toList_none, List.append_nil] at hg
  obtain ⟨s₂, hs₂, hg₂, hbody₂, hkernel₂⟩ := (hg.perm (.swap _ _ _)).kfree (List.mem_cons_self)
  rw [List.erase_cons_head] at hg₂
  obtain ⟨s₃, hs₃, hg₃, hbody₃, hkernel₃⟩ : ∃ s₃, s₂.kfreeOpt (s₁.body c).userStackBase = .ret s₃ ∧ Grown s s₃ [c] ∧
      s₃.body = s₂.body ∧ s₃.kernel = { s₂.kernel with vfs := s₃.kernel.vfs } := by
    cases hbase : (s₁.body c).userStackBase with
    | none =>
        rw [hbase] at hg₂
        exact ⟨s₂, rfl, hg₂, rfl, rfl⟩
    | some b =>
        rw [hbase] at hg₂
        obtain ⟨s₃, hs₃, hg₃, hrest⟩ := (hg₂.perm (.swap b c [])).kfree List.mem_cons_self
        rw [List.erase_cons_head] at hg₃
        exact ⟨s₃, hs₃, hg₃, hrest⟩
  obtain ⟨s₄, hs₄, hg₄, hbody₄, hkernel₄⟩ := hg₃.kfree List.mem_cons_self
  rw [List.erase_cons_head] at hg₄
  have hkernel : s₄.kernel = { s₁.kernel with vfs := s₄.kernel.vfs, tasks := s.kernel.tasks } := by
    rw [hkernel₄, hkernel₃, hkernel₂]
  refine ⟨s₄, ?_, ⟨hg₄, ?_, fun u hu => ?_⟩, hkernel⟩
  · rw [wait4, if_pos hcond, hwait, Exec.ret_bind]
    dsimp only
    rw [h.snapshot, State.kfreeOpt, Exec.ret_bind, hs₂, Exec.ret_bind, hbody₂, hstack, hs₃, Exec.ret_bind, hs₄]
  · rw [hkernel]
  · rw [hbody₄, hbody₃, hbody₂]
    exact h.body u hu

/-- With nothing on top the heap is charged as before, the rings of pipes included. -/
theorem Grown.heapCharged (hs : Steady s.kernel s.kernel) (h : Grown s s₁ []) (slack : Nat → Nat) :
    Tasks.heapCharged slack s₁.kernel = Tasks.heapCharged slack s.kernel := by
  refine heapCharged_same hs h.blocks.1.supply fun b => heldAt_congr ?_ ?_ (congrFun h.block b)
  · exact blockOf_restored hs.vfs h.blocks List.not_mem_nil (h.file b) (congrArg Option.isSome (congrFun h.pipe b))
  · exact congrArg Option.isSome (congrFun h.pipe b)

theorem Grown.buf (hv : Settled s.kernel.vfs) (h : Grown s s₁ []) : s₁.kernel.vfs.buf = s.kernel.vfs.buf := by
  funext b
  rcases Nat.lt_or_ge b s.kernel.vfs.nextObj with hlt | hge
  · exact h.blocks.1.old b hlt
  · rw [(hv.fresh b hge).1]
    exact Option.not_isSome_iff_eq_none.mp fun hlive => absurd ((h.blocks.1.live b hge).mp hlive) List.not_mem_nil

/-! ## The whole life -/

/-- The task starts programs, and every call of `execve` succeeds. -/
inductive Starts (c : Nat) : State → State → Prop
  | refl {s : State} : Starts c s s
  | snoc {s s' s'' : State} {p : Program} :
      Starts c s s' → sysExecve s' c p = .ret (s'', 0) → Starts c s s''

theorem Child.starts {c : Nat} {s₂ : State} (h : Child s s₁ t c) (hs : Housed s) (ht : t ∈ s.kernel.tasks)
    (hstarts : Starts c s₁ s₂) : Child s s₂ t c := by
  induction hstarts with
  | refl => exact h
  | snoc _ he ih => exact ih.execve hs ht he

/-- **The life of a child costs nothing.**  Whatever has happened so far: if a
fork has made the child `c`, which then starts any number of programs and
exits, its exit returns, the parent that waits for it gets it, and the heap is
charged with what it was charged with before the fork.  All blocks of data that
there were are there as they were, and no other is. -/
theorem life_cycle_neutral {c : Nat} {r : Int} {s₂ : State} (h : pipelessTasks.Reach s) (ht : t ∈ s.kernel.tasks)
    (hpid : (s.kernel.owner t).pid ≠ 0) (hfork : forkTask s t = .ret (s₁, r))
    (hchild : s₁.kernel.tasks = c :: s.kernel.tasks) (hstarts : Starts c s₁ s₂) (stale : Fin maxFds → SockPtr) :
    ∃ s₃ s₄, sysExit s₂ c stale = .ret s₃ ∧ wait4 s₃ t c = .ret s₄ ∧ s₄.kernel.tasks = s.kernel.tasks ∧
      s₄.kernel.vfs.buf = s.kernel.vfs.buf ∧ ∀ slack, heapCharged slack s₄.kernel = heapCharged slack s.kernel := by
  have hs := (Housed.of_reach h).1
  have hc : Child s s₁ t c := by
    rcases forkTask_spec hs ht _ hfork with haloft | ⟨c', hc⟩
    · have htasks : s₁.kernel.tasks = s.kernel.tasks := by rw [haloft.rest]
      exact absurd (htasks.symm.trans hchild) (List.ne_cons_self)
    · have hcc : c' = c := (List.cons.inj (hc.tasks.symm.trans hchild)).1
      exact hcc ▸ hc
  have hc₂ := hc.starts hs ht hstarts
  obtain ⟨s₃, hexit, hended, -⟩ := hc₂.exit hs ht
  obtain ⟨s₄, hwait, hreaped, -⟩ := hended.wait hs ht
  refine ⟨s₃, s₄, ?_, hwait, hreaped.tasks, hreaped.grown.buf hs.steady.vfs, hreaped.grown.heapCharged hs.steady⟩
  have hppid : (s₂.kernel.owner c).ppid ≠ 0 := by
    rw [hc₂.parent]
    exact hpid
  rw [sysExit, hexit, Exec.ret_bind, if_neg hppid]

end Life

/-! ## A command -/

/-- A machine without anything in its memory. -/
def bareMachine : State where
  kernel := Files.quietKernel
  body _ := ⟨0, 0, 0, none, 0, 0, none, [], []⟩
  place := Execve.sideBySide

/-- A shell that stores the program `/a`. -/
def storeProgram : List TaskEvent :=
  [.spawn fun _ => .null, .files (.openPath 3 rootCaller (str "/a") 0x42 .null),
    .files (.write 3 3 (some (Execve.imageOf [127, 69, 76, 70]))), .files (.close 3 3)]

theorem pipelessTasks_run {s s' : State} {es : List TaskEvent} (h : pipelessTasks.Reach s)
    (hrun : runTasks (fun _ _ => True) s es = .ret s') : pipelessTasks.Reach s' := by
  induction es generalizing s with
  | nil =>
      cases hrun
      exact h
  | cons e es ih =>
      rw [runTasks] at hrun
      split at hrun
      · rename_i hok
        obtain ⟨s₁, hs₁, hrun⟩ := Exec.bind_eq_ret.mp hrun
        exact ih (.step h trivial ⟨hok.1, hs₁⟩) hrun
      · cases hrun

theorem bareMachine_reach : pipelessTasks.Reach bareMachine :=
  .init ⟨quietKernel_boot, fun _ => rfl⟩

/-- Can the shell run `/a`? -/
def commandRuns (s : State) : Bool :=
  3 ∈ s.kernel.tasks ∧ (s.kernel.owner 3).pid ≠ 0 ∧
    (forkTask s 3).any fun r => r.1.kernel.tasks = 12 :: s.kernel.tasks ∧
      (sysExecve r.1 12 (starts (str "/a"))).any fun q => q.2 = 0

/-- The shell runs `/a`, and has its memory back. -/
theorem life_cycle_of_command : ∃ s s₂ s₃ s₄ : State, 3 ∈ s.kernel.tasks ∧ sysExit s₂ 12 (fun _ => .null) = .ret s₃ ∧
    wait4 s₃ 3 12 = .ret s₄ ∧ ∀ slack, heapCharged slack s₄.kernel = heapCharged slack s.kernel := by
  have hruns : (runTasks (fun _ _ => True) bareMachine storeProgram).any commandRuns = true := by decide +kernel
  obtain ⟨s, hs, hcheck⟩ := Exec.exists_of_any hruns
  obtain ⟨ht, hpid, hfork⟩ := of_decide_eq_true hcheck
  obtain ⟨⟨s₁, r⟩, hfork, hcheck⟩ := Exec.exists_of_any hfork
  obtain ⟨hchild, hexec⟩ := of_decide_eq_true hcheck
  obtain ⟨⟨s₂, q⟩, hexec, hq⟩ := Exec.exists_of_any hexec
  obtain rfl : q = 0 := of_decide_eq_true hq
  obtain ⟨s₃, s₄, hexit, hwait, -, -, hsame⟩ := life_cycle_neutral (pipelessTasks_run bareMachine_reach hs) ht hpid hfork
    hchild (.snoc .refl hexec) fun _ => .null
  exact ⟨s, s₂, s₃, s₄, ht, hexit, hwait, hsame⟩

end LiteBSD.Tasks
