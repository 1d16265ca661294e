/-
# `LiteBSD.Files.Moves` — what a call does to slots and files

The calls are built from few moves: an empty slot takes hold of a file, a new
file gets a slot, a slot lets go of its file, tasks with empty slots come and
tasks go; and there are two moves that a caller should not see, a new file
that is freed at once because there is no slot for it, and a new file that is
forgotten.  `run_moved` takes every call apart into moves.  What is then to be
shown of the descriptors is shown for each move, once.

`Allowed` says which moves an event can make: only `wait4` takes a task away,
only a pipe without two free slots forgets a file, and only a path call takes
a node away that a file may refer to.
-/
import LiteBSD.Lib.Holders
import LiteBSD.Files.System

namespace LiteBSD.Files

open Lib

/-- What `release_fd` gives back for a file. -/
def File.held (x : File) : Option Held :=
  match x.pipe, x.sock, x.node with
  | some p, _, _ => some (if x.pipeEnd = 0 then .readEnd p else .writeEnd p)
  | none, .slot i, _ => some (.sock i)
  | none, .wild, _ => none
  | none, .null, some n => some (.node n)
  | none, .null, none => some .console

/-- What reading and writing keep of a file. -/
def File.core (x : File) : Int × Option Nat × Option Held := (x.refCount, x.node, x.held)

/-- Nothing was made at `f` yet. -/
structure Fresh (k : Kernel) (f : Nat) : Prop where
  made : k.made f = none
  file : k.file f = none
  lt : f < k.vfs.nextObj

inductive Move where
  | same
  | vfs (v : Vfs)
  | hold (t : Nat) (i : Fin maxFds) (f : Nat)
  | make (t : Nat) (i : Fin maxFds) (f : Nat) (held : Held) (x : File)
  | discard (f : Nat) (held : Held) (x : File)
  | forget (f : Nat) (held : Held) (x : File)
  | drop (t : Nat) (i : Fin maxFds)
  | enter (c : Nat) (o : Owner)
  | leave (c : Nat)

inductive MoveStep (k : Kernel) : Move → Kernel → Prop
  | same {k' : Kernel} : k'.tasks = k.tasks → k'.fd = k.fd →
      (∀ f, (k'.file f).map File.core = (k.file f).map File.core) → k'.vfs = k.vfs →
      k'.made = k.made → k'.released = k.released → MoveStep k .same k'
  | vfs {v : Vfs} : VfsKept k.vfs v → MoveStep k (.vfs v) { k with vfs := v }
  | hold {t f : Nat} {i : Fin maxFds} {x : File} : t ∈ k.tasks → k.fd (t, i) = none →
      k.file f = some x → MoveStep k (.hold t i f)
        ((k.setFd t i (some f)).setFile f { x with refCount := x.refCount + 1 })
  | make {t f : Nat} {i : Fin maxFds} {held : Held} {x : File} : t ∈ k.tasks →
      k.fd (t, i) = none → Fresh k f → x.refCount = 1 →
      MoveStep k (.make t i f held x) ((k.putFile f held x).setFd t i (some f))
  | discard {f : Nat} {held : Held} {x : File} : Fresh k f →
      MoveStep k (.discard f held x) ((k.putFile f held x).freeFile f held)
  | forget {f : Nat} {held : Held} {x : File} : Fresh k f →
      MoveStep k (.forget f held x) (k.putFile f held x)
  | drop {k' : Kernel} {t : Nat} {i : Fin maxFds} : t ∈ k.tasks → releaseFd k t i = .ret k' →
      MoveStep k (.drop t i) k'
  | enter {c : Nat} {o : Owner} : c ∉ k.tasks → c < k.vfs.nextObj →
      MoveStep k (.enter c o) (addOwner k c o)
  | leave {c : Nat} : c ∈ k.tasks → MoveStep k (.leave c) { k with tasks := k.tasks.erase c }

/-- The moves that follow one another from `k` on. -/
def moves (k : Kernel) : System Kernel Move where
  init := fun s => s = k
  step := MoveStep

/-! ## What an event can do -/

/-- The node at `n` is there, or not, as before. -/
def SameNode (v v' : Vfs) (n : Nat) : Prop :=
  (v'.node n).map (fun m => m.synth) = (v.node n).map fun m => m.synth

/-- The nodes that files refer to are there as before. -/
def KeepsFiles (k : Kernel) (v : Vfs) : Prop :=
  ∀ f x n, k.file f = some x → x.node = some n → SameNode k.vfs v n

/-- A node that a new file may refer to: a synthetic one has no file yet. -/
def Openable (k : Kernel) (n : Nat) : Prop :=
  ∃ m, k.vfs.node n = some m ∧
    (m.synth = true → n = rootAddr ∨ ∀ f x, k.file f = some x → x.node ≠ some n)

/-- Some slot of a task points at the file `f`. -/
def Installed (k : Kernel) (f : Nat) : Prop := ∃ t ∈ k.tasks, ∃ i, k.fd (t, i) = some f

/-- Two slots are free for `alloc_fd`. -/
def TwoFree (k : Kernel) (t : Nat) : Prop :=
  ∃ i j : Fin maxFds, i ≠ j ∧ 3 ≤ i.val ∧ 3 ≤ j.val ∧ k.fd (t, i) = none ∧ k.fd (t, j) = none

/-- Memory for the file of a node or of the console holds `NULL` where the
file has its socket. -/
def FdEvent.clean : FdEvent → Prop
  | openPath _ _ _ _ stale => stale = .null
  | spawn stale => ∀ i, stale i = .null
  | _ => True

/-- The moves that the event `e` in the state `k` can make, having come to
the state `s`. -/
def Allowed (k : Kernel) (e : FdEvent) (s : Kernel) : Move → Prop
  | .vfs v => KeepsFiles s v ∨ ∃ t call a, e = .path t call ∧ s = k ∧ call.removes k.vfs = some a ∧
      ∀ n < k.vfs.nextObj, n ≠ a → SameNode k.vfs v n
  | .hold _ _ f => Installed s f
  | .make _ _ _ held x => (∀ n, x.node = some n → Openable s n) ∧ (e.clean → x.held = some held)
  | .forget _ _ x => x.node = none ∧ ∃ t stale stale', e = .pipe t stale stale' ∧ ¬TwoFree k t
  | .leave c => s = k ∧ ∃ t, e = .wait t c ∧ c ∈ k.tasks ∧ (k.owner c).zombie ∧
      (k.owner c).ppid = (k.owner t).pid
  | _ => True

/-- Addresses come from the supply. -/
structure Base (k : Kernel) : Prop where
  nodes : NodeTable k.vfs
  nodup : k.tasks.Nodup
  task : ∀ t ∈ k.tasks, t < k.vfs.nextObj
  file : ∀ f x, k.file f = some x → f < k.vfs.nextObj ∧ ∀ n, x.node = some n → n < k.vfs.nextObj
  made : ∀ f, k.made f ≠ none → f < k.vfs.nextObj

/-- `e` has come from `k` to `s`. -/
structure Moved (k : Kernel) (e : FdEvent) (s : Kernel) : Prop where
  base : Base s
  reach : (moves k).ReachVia (Allowed k e) s

/-! ## Nodes that stay -/

section Nodes

variable {v v' v'' : Vfs} {k : Kernel} {n : Nat}

theorem SameNode.of_eq (h : v'.node n = v.node n) : SameNode v v' n := by
  unfold SameNode
  rw [h]

theorem SameNode.of_sameNames (h : SameNames v v') (n : Nat) : SameNode v v' n := by
  have hlabel := congrArg (Option.map Label.synth) (congrFun h.label n)
  unfold SameNode
  simpa only [Vfs.label, Option.map_map, Function.comp_def] using hlabel

theorem SameNode.setNode {a : Nat} {m m' : Node} (hm : v.node a = some m)
    (hsynth : m'.synth = m.synth) (n : Nat) : SameNode v (v.setNode a m') n := by
  show Option.map _ (Function.update v.node a (some m') n) = _
  by_cases hn : n = a
  · rw [hn, Function.update_self, hm, Option.map_some, Option.map_some, hsynth]
  · rw [Function.update_of_ne hn]

theorem SameNode.update {a : Nat} {p : Option Node} (hnode : v'.node = Function.update v.node a p)
    (hn : n ≠ a) : SameNode v v' n :=
  .of_eq (by rw [hnode, Function.update_of_ne hn])

/-- A close leaves every node but its own, and its own if it is not
synthetic. -/
theorem SameNode.vfsClose {a : Nat} {ret : Int} (h : vfsClose v a = .ret (v', ret))
    (hn : n ≠ a ∨ a = rootAddr ∨ ∃ m, v.node a = some m ∧ m.synth = false) : SameNode v v' n := by
  obtain ⟨m, hm, ⟨refs, rfl⟩ | ⟨hsynth, hroot, _, _, hnode, _⟩⟩ := vfsClose_ret h
  · exact .setNode hm (by rfl) n
  · rcases hn with hn | ha | ⟨m', hm', hreal⟩
    · exact .update hnode hn
    · exact absurd ha hroot
    · rw [hm, Option.some.injEq] at hm'
      rw [hm', hreal] at hsynth
      cases hsynth

/-- A call leaves every node that it does not remove. -/
theorem sameNode_call (h : NodeTable v) {call : VfsCall} (hpath : onPaths call)
    (hs : vfsCall v call = .ret v') (hlt : n < v.nextObj) (hn : call.removes v ≠ some n) :
    SameNode v v' n := by
  cases call_effect h.fresh hs with
  | idle hu => exact .of_eq (by rw [hu.node])
  | opened => cases hpath
  | made hm _ => exact .update hm.node (Nat.ne_of_lt (Nat.lt_of_lt_of_le hlt hm.fresh.1))
  | @linked c path targetPath a target cell m t hl _ =>
      have hne : n ≠ a := Nat.ne_of_lt (Nat.lt_of_lt_of_le hlt hl.fresh.1)
      unfold SameNode
      rw [hl.node, Function.update_of_ne hne]
      by_cases htarget : n = target
      · rw [htarget, Function.update_self, hl.live]
        rfl
      · rw [Function.update_of_ne htarget]
  | wrote => cases hpath
  | truncated => cases hpath
  | closed => cases hpath
  | unlinked ha _ hu =>
      obtain ⟨m, hm⟩ := unlinkNode_ret hu
      refine .update hm.node fun hna => hn ?_
      rw [hna, ha]
  | renamed _ hr =>
      obtain ⟨m, _, rfl⟩ := renameNode_ret hr
      show Option.map _ (Option.map _ (v.node n)) = _
      rw [Option.map_map]
      rfl

theorem KeepsFiles.of_all (h : ∀ n, SameNode k.vfs v n) : KeepsFiles k v :=
  fun _ _ n _ _ => h n

/-- The close of a node that a file was to be opened on. -/
theorem Openable.vfsClose (h : Openable k n) {ret : Int} (hv : vfsClose k.vfs n = .ret (v, ret)) :
    KeepsFiles k v := by
  obtain ⟨m, hm, hsynth⟩ := h
  rintro f x a hx ha
  refine SameNode.vfsClose hv ?_
  by_cases hna : a = n
  · subst hna
    cases hreal : m.synth with
    | false => exact .inr (.inr ⟨m, hm, hreal⟩)
    | true =>
        rcases hsynth hreal with hroot | hnone
        · exact .inr (.inl hroot)
        · exact absurd ha (hnone f x hx)
  · exact .inl hna

theorem Openable.of_same (h : Openable k n) {k' : Kernel} (hfile : k'.file = k.file)
    (hsame : SameNode k.vfs k'.vfs n) : Openable k' n := by
  obtain ⟨m, hm, hsynth⟩ := h
  unfold SameNode at hsame
  rw [hm, Option.map_some, Option.map_eq_some_iff] at hsame
  obtain ⟨m', hm', heq⟩ := hsame
  refine ⟨m', hm', fun hs => ?_⟩
  rw [hfile]
  exact hsynth (heq ▸ hs)

/-- A node that was opened may get a file, and those that have one stay. -/
theorem openable_of_effect (h : Base k) {created : Option CStr} {p : Option Nat}
    (he : OpenEffect k.vfs v created p) :
    KeepsFiles k v ∧ ∀ n, p = some n → Openable { k with vfs := v } n := by
  cases he with
  | failed hu => exact ⟨.of_all fun n => .of_eq (by rw [hu.node]), nofun⟩
  | @found a m hm hl hv =>
      subst hv
      refine ⟨.of_all fun n => .setNode hm (by rfl) n, fun n hn => ?_⟩
      cases hn
      refine ⟨_, Function.update_self _ _ _, fun hsynth => ?_⟩
      rcases hl with hroot | hmem
      · exact .inl hroot
      · obtain ⟨m', hm', hreal⟩ := h.nodes.listed a hmem
        rw [hm, Option.some.injEq] at hm'
        rw [← hm'] at hreal
        rw [show m.synth = true from hsynth] at hreal
        cases hreal
  | @made a m hm _ =>
      have hlt (f : Nat) (x : File) (n : Nat) (hx : k.file f = some x) (hn : x.node = some n) :
          n ≠ a :=
        Nat.ne_of_lt (Nat.lt_of_lt_of_le ((h.file f x hx).2 n hn) hm.fresh.1)
      refine ⟨fun f x n hx hn => .update hm.node (hlt f x n hx hn), fun n hn => ?_⟩
      cases hn
      refine ⟨m, by rw [hm.node, Function.update_self], fun _ => .inr fun f x hx hn => ?_⟩
      exact hlt f x a hx hn rfl

end Nodes

/-! ## The holders -/

/-- The slots of the tasks. -/
def slotsOf (tasks : List Nat) : List (Nat × Fin maxFds) :=
  tasks.flatMap fun t => (List.finRange maxFds).map (Prod.mk t)

/-- How many slots point at the file `f`. -/
def Kernel.uses (k : Kernel) (f : Nat) : Nat := holders (slotsOf k.tasks) k.fd f

section Slots

variable {tasks : List Nat}

theorem mem_slotsOf {t : Nat} {i : Fin maxFds} : (t, i) ∈ slotsOf tasks ↔ t ∈ tasks := by
  simp [slotsOf]

theorem nodup_slotsOf (h : tasks.Nodup) : (slotsOf tasks).Nodup := by
  refine List.nodup_flatMap.mpr ⟨fun t _ => ?_, ?_⟩
  · exact (List.nodup_finRange _).map fun i j hij => (Prod.mk.inj hij).2
  · refine h.imp fun {s t} hst => ?_
    intro x hs ht
    obtain ⟨i, _, rfl⟩ := List.mem_map.mp hs
    obtain ⟨j, _, heq⟩ := List.mem_map.mp ht
    exact hst (Prod.mk.inj heq).1.symm

/-- The slots of one task that are empty count for nothing. -/
theorem holders_cons_task {t : Nat} {ptr : Nat × Fin maxFds → Option Nat}
    (h : ∀ i, ptr (t, i) = none) (f : Nat) :
    holders (slotsOf (t :: tasks)) ptr f = holders (slotsOf tasks) ptr f := by
  have hzero : ((List.finRange maxFds).map (Prod.mk t)).countP (fun s => ptr s = some f) = 0 := by
    rw [List.countP_eq_zero]
    intro s hs
    obtain ⟨i, _, rfl⟩ := List.mem_map.mp hs
    simp [h i]
  unfold holders
  rw [slotsOf, List.flatMap_cons, List.countP_append, hzero, Nat.zero_add]
  rfl

theorem holders_erase_task {t : Nat} {ptr : Nat × Fin maxFds → Option Nat} (ht : t ∈ tasks)
    (h : ∀ i, ptr (t, i) = none) (f : Nat) :
    holders (slotsOf (tasks.erase t)) ptr f = holders (slotsOf tasks) ptr f := by
  rw [← holders_cons_task h f]
  exact (((List.perm_cons_erase ht).flatMap_right _).countP_eq _).symm

/-- A new task has nothing open. -/
theorem holders_addOwner {k : Kernel} {c : Nat} (hc : c ∉ k.tasks) (o : Owner) (f : Nat) :
    holders (slotsOf (addOwner k c o).tasks) (addOwner k c o).fd f =
      holders (slotsOf k.tasks) k.fd f := by
  have hempty (i : Fin maxFds) : (addOwner k c o).fd (c, i) = none := if_pos rfl
  rw [show (addOwner k c o).tasks = c :: k.tasks from rfl, holders_cons_task hempty]
  refine holders_congr (fun s hs => if_neg ?_) f
  rintro rfl
  exact hc (mem_slotsOf.mp hs)

/-- The counters after a store. -/
theorem counts_update (file : Nat → Option File) (f : Nat) (p : Option File) :
    (fun g => (Function.update file f p g).map File.refCount) =
      Function.update (fun g => (file g).map File.refCount) f (p.map File.refCount) := by
  funext g
  by_cases hg : g = f
  · rw [hg, Function.update_self, Function.update_self]
  · rw [Function.update_of_ne hg, Function.update_of_ne hg]

end Slots

/-! ## Letting go -/

section Drop

variable {k k' : Kernel} {t f : Nat} {i : Fin maxFds} {x : File}

/-- What is done for a file nobody holds: it is freed, and what it stands for
is given back. -/
structure Closed (k k' : Kernel) (f : Nat) (x : File) : Prop where
  vfs : k'.vfs = k.vfs ∨ ∃ n ret, x.node = some n ∧ vfsClose k.vfs n = .ret (k'.vfs, ret)
  tasks : k'.tasks = k.tasks
  fd : k'.fd = k.fd
  file : k'.file = Function.update k.file f none
  made : k'.made = k.made
  released : ∃ held, x.held = some held ∧
    k'.released = Function.update k.released f (k.released f ++ [held])

theorem closeFile_closed : (closeFile k f x).Ensures fun k' => Closed k k' f x := by
  unfold closeFile
  split
  · rename_i hp
    split
    · exact .undefined
    · exact .ret ⟨.inl rfl, rfl, rfl, rfl, rfl, _, by rw [File.held, hp], rfl⟩
  · rename_i hp hs
    exact .ret ⟨.inl rfl, rfl, rfl, rfl, rfl, _, by rw [File.held, hp, hs], rfl⟩
  · exact .undefined
  · rename_i n hp hs hn
    refine .bind (fun _ hv => hv) fun ⟨v, ret⟩ hv => .ret ?_
    exact ⟨.inr ⟨n, ret, hn, hv⟩, rfl, rfl, rfl, rfl, _, by rw [File.held, hp, hs, hn], rfl⟩
  · rename_i hp hs hn
    exact .ret ⟨.inl rfl, rfl, rfl, rfl, rfl, _, by rw [File.held, hp, hs, hn], rfl⟩

theorem Closed.vfsKept (h : Closed k k' f x) (hnodes : NodeTable k.vfs) : VfsKept k.vfs k'.vfs := by
  rcases h.vfs with hv | ⟨n, ret, _, hv⟩
  · rw [hv]
    exact .refl hnodes
  · exact VfsKept.vfsClose hnodes n _ hv

/-- What `release_fd` can do. -/
inductive Dropped (k : Kernel) (t : Nat) (i : Fin maxFds) : Kernel → Prop
  | empty : k.fd (t, i) = none → Dropped k t i k
  | more {f : Nat} {x : File} : k.fd (t, i) = some f → k.file f = some x → ¬x.refCount - 1 ≤ 0 →
      Dropped k t i ((k.setFile f { x with refCount := x.refCount - 1 }).setFd t i none)
  | last {f : Nat} {x : File} {k₁ : Kernel} : k.fd (t, i) = some f → k.file f = some x →
      x.refCount - 1 ≤ 0 → Closed k k₁ f x → Dropped k t i (k₁.setFd t i none)

theorem releaseFd_dropped : (releaseFd k t i).Ensures (Dropped k t i) := by
  unfold releaseFd
  split
  · rename_i hnone
    exact .ret (.empty hnone)
  · rename_i f hf
    refine .bind (fun _ hx => load_eq_ret.mp hx) fun x hx => ?_
    unfold dropFile
    split
    · rename_i hlast
      exact .bind closeFile_closed fun k₁ hk₁ =>
        .ret (.last hf hx hlast ⟨hk₁.vfs, hk₁.tasks, hk₁.fd, hk₁.file, hk₁.made, hk₁.released⟩)
    · rename_i hmore
      exact .ret (.more hf hx hmore)

theorem Dropped.tasks (h : Dropped k t i k') : k'.tasks = k.tasks := by
  cases h with
  | empty => rfl
  | more => rfl
  | last _ _ _ hk => exact hk.tasks

end Drop

/-! ## Addresses -/

section Addresses

variable {k k' s s' : Kernel} {e : FdEvent} {m : Move}

theorem Base.boot (h : KernelBoot k) : Base k := by
  have hvfs : VfsBoot k.vfs := ⟨_, _, h.vfs⟩
  refine ⟨.of_boot hvfs, h.tasks ▸ .nil, ?_, fun f x hx => ?_, fun f hf => absurd (h.made f) hf⟩
  · rw [h.tasks]
    nofun
  · rw [h.file f] at hx
    cases hx

/-- Whatever is there was there, or is at an address that is in use now. -/
theorem Base.mono (h : Base k) (hvfs : VfsKept k.vfs k'.vfs) (hnodup : k'.tasks.Nodup)
    (htask : ∀ t ∈ k'.tasks, t ∈ k.tasks ∨ t < k'.vfs.nextObj)
    (hfile : ∀ f x, k'.file f = some x → (∃ y, k.file f = some y ∧ y.node = x.node) ∨
      f < k'.vfs.nextObj ∧ ∀ n, x.node = some n → n < k'.vfs.nextObj)
    (hmade : ∀ f, k'.made f ≠ none → k.made f ≠ none ∨ f < k'.vfs.nextObj) : Base k' := by
  have hle {a : Nat} (ha : a < k.vfs.nextObj) : a < k'.vfs.nextObj :=
    Nat.lt_of_lt_of_le ha hvfs.supply
  refine ⟨hvfs.nodes, hnodup, fun t ht => ?_, fun f x hx => ?_, fun f hf => ?_⟩
  · exact (htask t ht).elim (fun ht => hle (h.task t ht)) id
  · rcases hfile f x hx with ⟨y, hy, hnode⟩ | hnew
    · obtain ⟨hf, hn⟩ := h.file f y hy
      exact ⟨hle hf, fun n hxn => hle (hn n (hnode.trans hxn))⟩
    · exact hnew
  · exact (hmade f hf).elim (fun hf => hle (h.made f hf)) id

/-- A store into the files. -/
theorem file_update {file : Nat → Option File} {f g : Nat} {p : Option File} {x : File}
    (h : Function.update file f p g = some x) : g = f ∧ p = some x ∨ g ≠ f ∧ file g = some x := by
  by_cases hg : g = f
  · rw [hg, Function.update_self] at h
    exact .inl ⟨hg, h⟩
  · rw [Function.update_of_ne hg] at h
    exact .inr ⟨hg, h⟩

/-- A file that only changed its count, or went. -/
theorem Base.of_counts (h : Base k) (hvfs : VfsKept k.vfs k'.vfs) (htasks : k'.tasks = k.tasks)
    {f : Nat} {x : File} {p : Option File} (hx : k.file f = some x)
    (hp : ∀ y, p = some y → y.node = x.node) (hfile : k'.file = Function.update k.file f p)
    (hmade : k'.made = k.made) : Base k' := by
  refine h.mono hvfs (htasks ▸ h.nodup) (fun t ht => .inl (htasks ▸ ht)) (fun g y hy => .inl ?_)
    fun g hg => .inl (hmade ▸ hg)
  rw [hfile] at hy
  rcases file_update hy with ⟨rfl, hpy⟩ | ⟨_, hy⟩
  · exact ⟨x, hx, (hp y hpy).symm⟩
  · exact ⟨y, hy, rfl⟩

/-- A new file. -/
theorem Base.of_new (h : Base k) {f : Nat} {x : File} {held : Held} (hf : f < k.vfs.nextObj)
    (hnode : ∀ n, x.node = some n → n < k.vfs.nextObj) : Base (k.putFile f held x) := by
  refine h.mono (.refl h.nodes) h.nodup (fun t ht => .inl ht) (fun g y hy => ?_) fun g hg => ?_
  · rcases file_update hy with ⟨rfl, hpy⟩ | ⟨_, hy⟩
    · cases hpy
      exact .inr ⟨hf, hnode⟩
    · exact .inl ⟨y, hy, rfl⟩
  · by_cases hgf : g = f
    · exact .inr (hgf ▸ hf)
    · refine .inl ?_
      rwa [← Function.update_of_ne hgf (some held) k.made]

/-- Every move takes its addresses from the supply. -/
theorem Base.step (h : Base s) (ha : Allowed k e s m) (hs : MoveStep s m s') : Base s' := by
  have hrefl := VfsKept.refl h.nodes
  cases hs with
  | same htasks _ hfile hvfs hmade _ =>
      refine h.mono (hvfs ▸ hrefl) (htasks ▸ h.nodup) (fun t ht => .inl (htasks ▸ ht))
        (fun f x hx => .inl ?_) fun f hf => .inl (hmade ▸ hf)
      have hcore := hfile f
      rw [hx, Option.map_some, eq_comm, Option.map_eq_some_iff] at hcore
      obtain ⟨y, hy, heq⟩ := hcore
      exact ⟨y, hy, (Prod.mk.inj (Prod.mk.inj heq).2).1⟩
  | vfs hv =>
      exact h.mono hv h.nodup (fun t ht => .inl ht) (fun f x hx => .inl ⟨x, hx, rfl⟩) fun f hf =>
        .inl hf
  | hold _ _ hx => exact h.of_counts hrefl rfl hx (fun y hy => by cases hy; rfl) rfl rfl
  | @make t f i held x _ _ hf _ =>
      have hnew : Base (s.putFile f held x) := by
        refine h.of_new hf.lt fun n hn => ?_
        obtain ⟨m, hm, _⟩ := ha.1 n hn
        exact h.nodes.lt_supply hm
      exact ⟨hnew.nodes, hnew.nodup, hnew.task, hnew.file, hnew.made⟩
  | @discard f held x hf =>
      have hnew : Base (s.putFile f held { x with node := none }) := h.of_new hf.lt nofun
      refine ⟨hnew.nodes, hnew.nodup, hnew.task, fun g y hy => ?_, hnew.made⟩
      rcases file_update hy with ⟨_, hno⟩ | ⟨hg, hy⟩
      · cases hno
      · rw [putFile_file, Function.update_of_ne hg] at hy
        exact h.file g y hy
  | forget hf =>
      refine h.of_new hf.lt fun n hn => ?_
      rw [ha.1] at hn
      cases hn
  | drop _ hdrop =>
      cases releaseFd_dropped _ hdrop with
      | empty => exact h
      | more _ hx _ => exact h.of_counts hrefl rfl hx (fun y hy => by cases hy; rfl) rfl rfl
      | last _ hx _ hk =>
          exact h.of_counts (p := none) (hk.vfsKept h.nodes) hk.tasks hx nofun hk.file hk.made
  | @enter c o hc hlt =>
      refine h.mono hrefl (List.nodup_cons.mpr ⟨hc, h.nodup⟩) (fun t ht => ?_)
        (fun f x hx => .inl ⟨x, hx, rfl⟩) fun f hf => .inl hf
      rcases List.mem_cons.mp ht with rfl | ht
      · exact .inr hlt
      · exact .inl ht
  | leave hc =>
      exact h.mono hrefl (h.nodup.erase _) (fun t ht => .inl (List.mem_of_mem_erase ht))
        (fun f x hx => .inl ⟨x, hx, rfl⟩) fun f hf => .inl hf

theorem Moved.step (h : Moved k e s) (hs : MoveStep s m s') (ha : Allowed k e s m) :
    Moved k e s' :=
  ⟨h.base.step ha hs, .step h.reach ha hs⟩

end Addresses

/-! ## The calls, taken apart -/

section Calls

variable {k s : Kernel} {e : FdEvent} {t : Nat}

theorem Moved.start (h : Base k) : Moved k e k := ⟨h, .init rfl⟩

/-- Changes besides the descriptors, the files and the file system. -/
theorem Moved.rest (h : Moved k e s) {s' : Kernel} (hvfs : s'.vfs = s.vfs)
    (htasks : s'.tasks = s.tasks) (hfd : s'.fd = s.fd) (hfile : s'.file = s.file)
    (hmade : s'.made = s.made) (hreleased : s'.released = s.released) : Moved k e s' :=
  h.step (.same htasks hfd (fun f => by rw [hfile]) hvfs hmade hreleased) trivial

/-- A file is read or written. -/
theorem Moved.setFile (h : Moved k e s) {f : Nat} {x y : File} (hx : s.file f = some x)
    (hcore : y.core = x.core) : Moved k e (s.setFile f y) := by
  refine h.step (.same rfl rfl (fun g => ?_) rfl rfl rfl) trivial
  rw [setFile_file, Function.update_apply]
  split
  · rename_i hg
    rw [hg, hx, Option.map_some, Option.map_some, hcore]
  · rfl

/-- Work in the file system. -/
theorem Moved.vfs (h : Moved k e s) {v : Vfs} (hv : VfsKept s.vfs v) (hkeeps : KeepsFiles s v) :
    Moved k e { s with vfs := v } :=
  h.step (.vfs hv) (.inl hkeeps)

theorem Moved.sameNames (h : Moved k e s) {v : Vfs} (hv : VfsKept s.vfs v)
    (hs : SameNames s.vfs v) : Moved k e { s with vfs := v } :=
  h.vfs hv (.of_all (.of_sameNames hs))

/-- `kmalloc` takes an address that nothing is at. -/
theorem Moved.kmalloc (h : Moved k e s) (size : Nat) :
    (s.kmalloc size).Ensures fun p => ∃ v, p.1 = { s with vfs := v } ∧ Untouched s.vfs v ∧
      Moved k e { s with vfs := v } ∧
      ∀ a, p.2 = some a → Fresh { s with vfs := v } a ∧ a ∉ s.tasks ∧ s.vfs.nextObj ≤ a := by
  refine (kmalloc_ensures s size).mono fun p hp => ?_
  obtain ⟨v, hv, hu, ha⟩ := hp
  have hsame (n : Nat) : SameNode s.vfs v n := .of_eq (by rw [hu.node])
  refine ⟨v, hv, hu, h.vfs (.untouched h.base.nodes hu) (.of_all hsame), fun a hpa => ?_⟩
  obtain ⟨rfl, hnext⟩ := ha a hpa
  refine ⟨⟨?_, ?_, hnext ▸ Nat.lt_succ_self _⟩, fun hmem => ?_, Nat.le_refl _⟩
  · by_contra hmade
    exact Nat.lt_irrefl _ (h.base.made _ hmade)
  · by_contra hfile
    obtain ⟨x, hx⟩ := Option.ne_none_iff_exists'.mp hfile
    exact Nat.lt_irrefl _ (h.base.file _ x hx).1
  · exact Nat.lt_irrefl _ (h.base.task _ hmem)

theorem freeFd_none {i : Fin maxFds} (h : freeFd k t = some i) : k.fd (t, i) = none := by
  have hi := List.find?_some h
  simp only [decide_eq_true_eq] at hi
  exact hi.2

theorem freeFd_isSome {i : Fin maxFds} (hi : 3 ≤ i.val) (h : k.fd (t, i) = none) :
    ∃ j, freeFd k t = some j := by
  rw [← Option.isSome_iff_exists, freeFd, List.find?_isSome]
  exact ⟨i, List.mem_finRange i, by simp [hi, h]⟩

theorem Moved.openNode (h : Moved k e s) (ht : t ∈ s.tasks) {n : Nat} (hn : Openable s n)
    (flags : Nat) {stale : SockPtr} (hclean : e.clean → stale = .null) :
    (openNode s t n flags stale).Ensures fun p => Moved k e p.1 := by
  unfold Files.openNode
  refine .bind (h.kmalloc fileSize) fun ⟨s₁, p⟩ hs₁ => ?_
  obtain ⟨v, rfl, hu, h₁, hfresh⟩ := hs₁
  have hn₁ : Openable { s with vfs := v } n := hn.of_same rfl (.of_eq (by rw [hu.node]))
  cases p with
  | none =>
      refine .bind (fun _ hw => hw) fun ⟨w, r⟩ hw => .ret ?_
      exact h₁.vfs (VfsKept.vfsClose h₁.base.nodes n _ hw) (hn₁.vfsClose hw)
  | some f =>
      obtain ⟨hf, _⟩ := hfresh f rfl
      refine .after fun offset => ?_
      dsimp only
      generalize hx : (⟨some n, offset, flags, 1, none, 0, stale⟩ : File) = x
      unfold allocFd
      cases hfree : freeFd (({ s with vfs := v } : Kernel).putFile f (.node n) x) t with
      | some i =>
          refine .ret (h₁.step (.make ht (freeFd_none hfree) hf (by rw [← hx])) ?_)
          refine ⟨fun n' hn' => ?_, fun hc => ?_⟩
          · rw [← hx, Option.some.injEq] at hn'
            exact hn' ▸ hn₁
          · rw [← hx, hclean hc]
            rfl
      | none =>
          refine .bind (fun _ hw => hw) fun ⟨w, r⟩ hw => .ret ?_
          have hkept : VfsKept v w := VfsKept.vfsClose h₁.base.nodes n _ hw
          have h₂ : Moved k e { s with vfs := w } := h₁.vfs hkept (hn₁.vfsClose hw)
          have hf₂ : Fresh { s with vfs := w } f :=
            ⟨hf.made, hf.file, Nat.lt_of_lt_of_le hf.lt hkept.supply⟩
          exact h₂.step (.discard hf₂) trivial

theorem Moved.sysOpen (h : Moved k e s) (ht : t ∈ s.tasks) (c : Caller) (path : CStr)
    (flags : Nat) {stale : SockPtr} (hclean : e.clean → stale = .null) :
    (sysOpen s t c path flags stale).Ensures fun p => Moved k e p.1 := by
  unfold Files.sysOpen
  refine .after fun refused => ?_
  split
  · exact .ret h
  refine .bind (fun _ hv => hv) fun ⟨v, p⟩ hv => ?_
  obtain ⟨hkeeps, hopen⟩ := openable_of_effect h.base (vfsOpen_effect hv)
  have h₁ : Moved k e { s with vfs := v } :=
    h.vfs (VfsKept.vfsOpen h.base.nodes c path flags _ hv) hkeeps
  cases p with
  | none => exact .ret h₁
  | some n =>
      refine .bind (fun _ hw => hw) fun w hw => ?_
      have hnames : SameNames v w := by
        unfold truncOnOpen at hw
        split at hw
        · obtain ⟨⟨u, r⟩, hu, hw⟩ := Exec.bind_eq_ret.mp hw
          cases hw
          exact .of_vfsTruncate hu
        · cases hw
          exact .refl _
      have h₂ : Moved k e { s with vfs := w } :=
        h₁.sameNames (VfsKept.truncOnOpen h₁.base.nodes n flags _ hw) hnames
      have hn : Openable { s with vfs := w } n :=
        (hopen n rfl).of_same rfl (SameNode.of_sameNames hnames n)
      exact h₂.openNode ht hn flags hclean

theorem Moved.sysSocket (h : Moved k e s) (ht : t ∈ s.tasks) (domain type protocol : Nat) :
    (sysSocket s t domain type protocol).Ensures fun p => Moved k e p.1 := by
  unfold Files.sysSocket
  generalize sockCreate s.net domain type protocol = c
  obtain ⟨n, i⟩ := c
  have h₁ : Moved k e { s with net := n } := h.rest rfl rfl rfl rfl rfl rfl
  cases i with
  | none => exact .ret h₁
  | some i =>
      refine .bind (h₁.kmalloc fileSize) fun ⟨s₁, p⟩ hs₁ => ?_
      obtain ⟨v, rfl, _, h₂, hfresh⟩ := hs₁
      cases p with
      | none => exact .ret (h₂.rest rfl rfl rfl rfl rfl rfl)
      | some f =>
          obtain ⟨hf, _⟩ := hfresh f rfl
          dsimp only
          generalize hx : (⟨none, 0, 0, 1, none, 0, .slot i⟩ : File) = x
          unfold allocFd
          cases hfree : freeFd (({ s with net := n, vfs := v } : Kernel).putFile f (.sock i) x) t with
          | some j =>
              refine .ret (h₂.step (.make ht (freeFd_none hfree) hf (by rw [← hx])) ?_)
              refine ⟨fun n' hn' => ?_, fun _ => by rw [← hx]; rfl⟩
              rw [← hx] at hn'
              cases hn'
          | none =>
              have h₃ : Moved k e { s with net := sockDestroy n i, vfs := v } :=
                h₂.rest rfl rfl rfl rfl rfl rfl
              exact .ret (h₃.step (.discard ⟨hf.made, hf.file, hf.lt⟩) trivial)

theorem Moved.releaseFd (h : Moved k e s) (ht : t ∈ s.tasks) (i : Fin maxFds) :
    (releaseFd s t i).Ensures fun s' => Moved k e s' ∧ s'.tasks = s.tasks := by
  intro s' hs'
  exact ⟨h.step (.drop ht hs') trivial, (releaseFd_dropped s' hs').tasks⟩

theorem Moved.retainFile (h : Moved k e s) (ht : t ∈ s.tasks) {i : Fin maxFds} {f : Nat}
    (hfd : s.fd (t, i) = none) (hf : Installed s f) :
    (retainFile (s.setFd t i (some f)) f).Ensures (Moved k e) := by
  unfold Files.retainFile
  exact .bind (fun _ hx => load_eq_ret.mp hx) fun x hx => .ret (h.step (.hold ht hfd hx) hf)

theorem installed_of_fdAt {fd f : Nat} (ht : t ∈ s.tasks) (h : s.fdAt t fd = some f) :
    Installed s f := by
  unfold Kernel.fdAt at h
  split at h
  · exact ⟨t, ht, _, h⟩
  · cases h

theorem Moved.sysDup (h : Moved k e s) (ht : t ∈ s.tasks) (fd : Nat) :
    (sysDup s t fd).Ensures fun p => Moved k e p.1 := by
  unfold Files.sysDup
  split
  · exact .ret h
  rename_i f hf
  unfold allocFd
  cases hfree : freeFd s t with
  | none => exact .ret h
  | some i =>
      have hinst : Installed s f := installed_of_fdAt ht hf
      exact .bind (h.retainFile ht (freeFd_none hfree) hinst) fun _ hs => .ret hs

theorem Moved.sysDup2 (h : Moved k e s) (ht : t ∈ s.tasks) (oldfd newfd : Nat) :
    (sysDup2 s t oldfd newfd).Ensures fun p => Moved k e p.1 := by
  unfold Files.sysDup2
  split
  · rename_i hok
    refine .bind (fun _ hs₁ => hs₁) fun s₁ hs₁ => ?_
    obtain ⟨h₁, htasks⟩ := h.releaseFd ht _ s₁ hs₁
    have hempty : s₁.fd (t, ⟨newfd, hok.2.2⟩) = none := by
      rw [releaseFd_fd hs₁, Function.update_self]
    dsimp only
    split
    · rename_i f hf
      rw [hf]
      have ht₁ : t ∈ s₁.tasks := htasks ▸ ht
      exact .bind (h₁.retainFile ht₁ hempty ⟨t, ht₁, _, hf⟩) fun _ hs => .ret hs
    · rename_i hnone
      refine .ret (h₁.rest rfl rfl ?_ rfl rfl rfl)
      show Function.update s₁.fd _ (s₁.fd _) = _
      rw [hnone, ← hempty, Function.update_eq_self]
  · exact .ret h

theorem Fresh.putFile {f g : Nat} (h : Fresh s g) (hne : g ≠ f) (held : Held) (x : File) :
    Fresh (s.putFile f held x) g := by
  refine ⟨?_, ?_, h.lt⟩
  · show Function.update s.made f (some held) g = none
    rw [Function.update_of_ne hne, h.made]
  · rw [putFile_file, Function.update_of_ne hne, h.file]

theorem putFile_comm {f g : Nat} (hne : f ≠ g) (held held' : Held) (x x' : File) :
    (s.putFile f held x).putFile g held' x' = (s.putFile g held' x').putFile f held x := by
  unfold Kernel.putFile Kernel.setFile
  dsimp only
  rw [Function.update_comm hne, Function.update_comm hne]

/-- Two free slots leave one when one is taken. -/
theorem TwoFree.next (h : TwoFree s t) (a : Fin maxFds) (f : Nat) :
    ∃ b, freeFd (s.setFd t a (some f)) t = some b := by
  obtain ⟨i, j, hij, hi, hj, hfi, hfj⟩ := h
  have hother {c : Fin maxFds} (hc : 3 ≤ c.val) (hfc : s.fd (t, c) = none) (hca : c ≠ a) :
      ∃ b, freeFd (s.setFd t a (some f)) t = some b := by
    refine freeFd_isSome hc ?_
    rw [setFd_fd, Function.update_of_ne, hfc]
    exact fun heq => hca (Prod.mk.inj heq).2
  by_cases hai : i = a
  · exact hother hj hfj fun hja => hij (hai.trans hja.symm)
  · exact hother hi hfi hai

/-- One end of a pipe gets a slot. -/
theorem Moved.makeEnd (h : Moved k e s) (ht : t ∈ s.tasks) {i : Fin maxFds} {f p pipeEnd : Nat}
    {held : Held} {stale : SockPtr} (hfd : s.fd (t, i) = none) (hf : Fresh s f)
    (hheld : (pipeFile p pipeEnd stale).held = some held) :
    Moved k e ((s.putFile f held (pipeFile p pipeEnd stale)).setFd t i (some f)) :=
  h.step (.make ht hfd hf rfl) ⟨nofun, fun _ => hheld⟩

/-- One end of a pipe is forgotten. -/
theorem Moved.forgetEnd (h : Moved k e s) {f p pipeEnd : Nat} (held : Held) {stale : SockPtr}
    (hf : Fresh s f) (hno : ∃ t a b, e = .pipe t a b ∧ ¬TwoFree k t) :
    Moved k e (s.putFile f held (pipeFile p pipeEnd stale)) :=
  h.step (.forget hf) ⟨rfl, hno⟩

/-- A pipe gets two slots, or forgets what got none. -/
theorem Moved.openPipe (h : Moved k e s) (ht : t ∈ s.tasks) {p r w : Nat} {stale stale' : SockPtr}
    (he : ∃ a b, e = .pipe t a b) (hfd : s.fd = k.fd) (hr : Fresh s r) (hw : Fresh s w)
    (hne : r ≠ w) : (openPipe s t p r w stale stale').Ensures fun q => Moved k e q.1 := by
  unfold Files.openPipe
  dsimp only
  generalize hs₁ : ({ s with
    pipe := Function.update s.pipe p (some ⟨⟨fun _ => 0, 0, 0, 0⟩, 1, 1, false⟩) } : Kernel) = s₁
  have h₁ : Moved k e s₁ := hs₁ ▸ h.rest rfl rfl rfl rfl rfl rfl
  have ht₁ : t ∈ s₁.tasks := hs₁ ▸ ht
  have hr₁ : Fresh s₁ r := hs₁ ▸ ⟨hr.made, hr.file, hr.lt⟩
  have hw₁ : Fresh s₁ w := hs₁ ▸ ⟨hw.made, hw.file, hw.lt⟩
  have hfd₁ : s₁.fd = k.fd := by rw [← hs₁, ← hfd]
  have hforget (hno : ¬TwoFree s₁ t) : ∃ t a b, e = .pipe t a b ∧ ¬TwoFree k t := by
    obtain ⟨a, b, hab⟩ := he
    refine ⟨t, a, b, hab, ?_⟩
    unfold TwoFree at hno ⊢
    rwa [← hfd₁]
  generalize hs₂ : (s₁.putFile r (.readEnd p) (pipeFile p 0 stale)).putFile w (.writeEnd p)
    (pipeFile p 1 stale') = s₂
  have hfd₂ : s₂.fd = s₁.fd := by rw [← hs₂]; rfl
  have hfree₂ : TwoFree s₁ t → TwoFree s₂ t := by
    unfold TwoFree
    rw [hfd₂]
    exact id
  unfold allocFd
  cases ha : freeFd s₂ t with
  | none =>
      have hno : ¬TwoFree s₁ t := by
        intro htwo
        obtain ⟨i, _, _, hi, _, hfi, _⟩ := hfree₂ htwo
        obtain ⟨a, ha'⟩ := freeFd_isSome hi hfi
        rw [ha] at ha'
        cases ha'
      dsimp only
      rw [ha]
      refine .ret ?_
      rw [← hs₂]
      have h₂ : Moved k e (s₁.putFile r (.readEnd p) (pipeFile p 0 stale)) :=
        h₁.forgetEnd _ hr₁ (hforget hno)
      exact h₂.forgetEnd _ (hw₁.putFile hne.symm _ _) (hforget hno)
  | some a =>
      have hfa : s₁.fd (t, a) = none := hfd₂ ▸ freeFd_none ha
      dsimp only
      cases hb : freeFd (s₂.setFd t a (some r)) t with
      | none =>
          have hno : ¬TwoFree s₁ t := by
            intro htwo
            obtain ⟨b, hb'⟩ := (hfree₂ htwo).next a r
            rw [hb] at hb'
            cases hb'
          dsimp only
          rw [← hs₂, putFile_comm hne]
          have h₂ : Moved k e (s₁.putFile w (.writeEnd p) (pipeFile p 1 stale')) :=
            h₁.forgetEnd _ hw₁ (hforget hno)
          have h₃ := h₂.makeEnd ht₁ hfa (hr₁.putFile hne _ _)
            (show (pipeFile p 0 stale).held = some (.readEnd p) from rfl)
          exact .bind (h₃.releaseFd ht₁ a) fun _ hs => .ret hs.1
      | some b =>
          have hfb := freeFd_none hb
          rw [setFd_fd, hfd₂] at hfb
          refine .ret ?_
          rw [← hs₂]
          have h₂ := h₁.makeEnd ht₁ hfa hr₁
            (show (pipeFile p 0 stale).held = some (.readEnd p) from rfl)
          refine h₂.makeEnd ht₁ hfb ?_ (show (pipeFile p 1 stale').held = some (.writeEnd p) from rfl)
          have hw₂ := hw₁.putFile hne.symm (.readEnd p) (pipeFile p 0 stale)
          exact ⟨hw₂.made, hw₂.file, hw₂.lt⟩

theorem Moved.drawnTo (h : Moved k e s) (n : Nat) (block : Nat → Option Nat) : Moved k e (drawnTo s n block) := by
  have hu := untouched_drawnTo s n block
  have hsame (a : Nat) : SameNode s.vfs (Files.drawnTo s n block).vfs a := .of_eq (by rw [hu.node])
  exact (h.vfs (.untouched h.base.nodes hu) (.of_all hsame)).rest rfl rfl rfl rfl rfl rfl

theorem Moved.sysPipe (h : Moved k e s) (ht : t ∈ s.tasks) {stale stale' : SockPtr}
    (he : ∃ a b, e = .pipe t a b) (hfd : s.fd = k.fd) :
    (sysPipe s t stale stale').Ensures fun q => Moved k e q.1 := by
  rintro ⟨s', ret⟩ hrun
  obtain ⟨block, -, ⟨-, -, n, rfl⟩ | ⟨-, hopen⟩⟩ := sysPipe_blocks hrun
  · exact h.drawnTo n block
  · have hfresh (i : Nat) (hi : i < 4) : Fresh (Files.drawnTo s 4 block) (s.vfs.nextObj + i) := by
      refine ⟨?_, ?_, Nat.add_lt_add_left hi _⟩
      · by_contra hmade
        exact absurd (h.base.made _ hmade) (Nat.not_lt.mpr (Nat.le_add_right _ _))
      · by_contra hfile
        obtain ⟨x, hx⟩ := Option.ne_none_iff_exists'.mp hfile
        exact absurd (h.base.file _ x hx).1 (Nat.not_lt.mpr (Nat.le_add_right _ _))
    exact (h.drawnTo 4 block).openPipe ht he hfd (hfresh 2 (by decide)) (hfresh 3 (by decide))
      (Nat.ne_of_lt (Nat.lt_succ_self _)) _ hopen

/-- A new task `c` whose slots in `rest` are still to be filled. -/
structure Filling (k : Kernel) (e : FdEvent) (c : Nat) (rest : List (Fin maxFds)) (s : Kernel) :
    Prop where
  moved : Moved k e s
  task : c ∈ s.tasks
  nodup : rest.Nodup
  empty : ∀ i ∈ rest, s.fd (c, i) = none

/-- One slot is filled. -/
theorem Filling.next {c : Nat} {i : Fin maxFds} {rest : List (Fin maxFds)} {s' : Kernel}
    (h : Filling k e c (i :: rest) s) (hmoved : Moved k e s') (htasks : s'.tasks = s.tasks)
    (hfd : ∃ p, s'.fd = Function.update s.fd (c, i) p) : Filling k e c rest s' := by
  obtain ⟨hi, hrest⟩ := List.nodup_cons.mp h.nodup
  obtain ⟨p, hfd⟩ := hfd
  refine ⟨hmoved, htasks ▸ h.task, hrest, fun j hj => ?_⟩
  rw [hfd, Function.update_of_ne, h.empty j (List.mem_cons_of_mem i hj)]
  rintro heq
  exact hi ((Prod.mk.inj heq).2 ▸ hj)

theorem Filling.copyFd {c : Nat} {i : Fin maxFds} {rest : List (Fin maxFds)}
    (h : Filling k e c (i :: rest) s) (ht : t ∈ s.tasks) :
    (copyFd t c s i).Ensures fun s' => Filling k e c rest s' ∧ t ∈ s'.tasks := by
  have hempty := h.empty i List.mem_cons_self
  unfold Files.copyFd
  dsimp only
  split
  · rename_i hnone
    refine .ret ⟨h.next (h.moved.rest rfl rfl ?_ rfl rfl rfl) rfl ⟨_, rfl⟩, ht⟩
    rw [setFd_fd, hnone, ← hempty, Function.update_eq_self]
  · rename_i f hf
    rw [hf]
    intro s' hs'
    have hmoved := h.moved.retainFile h.task hempty ⟨t, ht, i, hf⟩ s' hs'
    obtain ⟨x, _, hx⟩ := Exec.bind_eq_ret.mp hs'
    cases hx
    exact ⟨h.next hmoved rfl ⟨some f, rfl⟩, ht⟩

theorem Moved.forkTask (h : Moved k e s) (ht : t ∈ s.tasks) :
    (forkTask s t).Ensures fun p => Moved k e p.1 := by
  unfold Files.forkTask
  refine .bind (h.kmalloc _) fun ⟨s₁, p⟩ hs₁ => ?_
  obtain ⟨v₁, rfl, _, h₁, _⟩ := hs₁
  cases p with
  | none => exact .ret h₁
  | some _ =>
      refine .bind (h₁.kmalloc _) fun ⟨s₂, p⟩ hs₂ => ?_
      obtain ⟨v₂, rfl, _, h₂, hc⟩ := hs₂
      cases p with
      | none => exact .ret h₂
      | some c =>
          obtain ⟨hfresh, hoff, _⟩ := hc c rfl
          refine .bind (h₂.kmalloc _) fun ⟨s₃, p⟩ hs₃ => ?_
          obtain ⟨v₃, rfl, hu, h₃, _⟩ := hs₃
          cases p with
          | none => exact .ret (h₃.rest rfl rfl rfl rfl rfl rfl)
          | some _ =>
              dsimp only
              refine .bind (P := fun s => Filling k e c [] s ∧ t ∈ s.tasks) ?_
                fun _ hs => .ret hs.1.moved
              refine Exec.Ensures.foldlM (fun rest s => Filling k e c rest s ∧ t ∈ s.tasks)
                (fun i _ s' hs' => hs'.1.copyFd hs'.2) ⟨?_, List.mem_cons_of_mem c ht⟩
              have hlt : c < v₃.nextObj := Nat.lt_of_lt_of_le hfresh.lt hu.supply
              exact ⟨h₃.step (.enter hoff hlt) trivial, List.mem_cons_self,
                List.nodup_finRange _, fun i _ => if_pos rfl⟩

theorem Filling.openStd {c : Nat} {i : Fin maxFds} {rest : List (Fin maxFds)}
    {stale : Fin maxFds → SockPtr} (h : Filling k e c (i :: rest) s)
    (hclean : e.clean → stale i = .null) :
    (openStd c stale s i).Ensures (Filling k e c rest) := by
  have hempty := h.empty i List.mem_cons_self
  unfold Files.openStd
  refine .bind (h.moved.kmalloc _) fun ⟨s₁, p⟩ hs₁ => ?_
  obtain ⟨v, rfl, _, h₁, hfresh⟩ := hs₁
  cases p with
  | none => exact .ret (h.next h₁ rfl ⟨none, by rw [← hempty, Function.update_eq_self]⟩)
  | some f =>
      obtain ⟨hf, _⟩ := hfresh f rfl
      refine .ret (h.next (h₁.step (.make h.task hempty hf rfl) ⟨nofun, fun hc => ?_⟩) rfl ⟨_, rfl⟩)
      rw [hclean hc]
      rfl

theorem Moved.createUserTask (h : Moved k e s) {stale : Fin maxFds → SockPtr}
    (hclean : e.clean → ∀ i, stale i = .null) :
    (createUserTask s stale).Ensures (Moved k e) := by
  unfold Files.createUserTask
  refine .bind (h.kmalloc _) fun ⟨s₁, p⟩ hs₁ => ?_
  obtain ⟨v, rfl, _, h₁, hc⟩ := hs₁
  cases p with
  | none => exact .ret h₁
  | some c =>
      obtain ⟨hfresh, hoff, _⟩ := hc c rfl
      refine (Exec.Ensures.foldlM (Filling k e c)
        (fun i _ s' hs' => hs'.openStd fun hc => hclean hc i) ?_).mono fun _ hs => hs.moved
      exact ⟨h₁.step (.enter hoff hfresh.lt) trivial, List.mem_cons_self, by decide,
        fun i _ => if_pos rfl⟩

theorem Moved.taskExit (h : Moved k e s) (ht : t ∈ s.tasks) :
    (taskExit s t).Ensures (Moved k e) := by
  refine (Exec.Ensures.foldlM (fun _ s => Moved k e s ∧ t ∈ s.tasks) (fun i _ s hs => ?_) ?_).mono
    fun _ hs => hs.1
  · refine (hs.1.releaseFd hs.2 i).mono fun s' hs' => ?_
    exact ⟨hs'.1, hs'.2 ▸ hs.2⟩
  · exact ⟨h.rest rfl rfl rfl rfl rfl rfl, ht⟩

theorem Moved.fileWrite (h : Moved k e s) {f : Nat} {x : File} (hx : s.file f = some x)
    (buf : List UInt8) : (fileWrite s f x buf).Ensures fun p => Moved k e p.1 := by
  unfold Files.fileWrite
  split
  · exact .ret (h.rest rfl rfl rfl rfl rfl rfl)
  · exact .undefined
  · split
    · exact .undefined
    · exact .after fun _ => .ret (h.rest rfl rfl rfl rfl rfl rfl)
  · refine .after fun offset => .bind (fun _ hv => hv) fun ⟨v, r⟩ hv => .ret ?_
    have hkept : VfsKept s.vfs v := VfsKept.vfsWrite h.base.nodes _ offset buf _ hv
    exact (h.sameNames hkept (.of_vfsWrite hv)).setFile (x := x) hx rfl
  · exact .ret h

theorem Moved.fileRead (h : Moved k e s) {f : Nat} {x : File} (hx : s.file f = some x)
    (count : Nat) : (fileRead s f x count).Ensures fun p => Moved k e p.1 := by
  unfold Files.fileRead
  split
  · exact .ret (h.rest rfl rfl rfl rfl rfl rfl)
  · exact .undefined
  · split
    · exact .undefined
    · exact .after fun _ => .ret (h.rest rfl rfl rfl rfl rfl rfl)
  · exact .after fun _ => .ret (h.setFile hx rfl)
  · exact .ret h

theorem Moved.sysWrite (h : Moved k e s) (fd : Nat) (buffer : Option (List UInt8)) :
    (sysWrite s t fd buffer).Ensures fun p => Moved k e p.1 := by
  unfold Files.sysWrite
  split
  · exact .ret h
  refine .after fun console => ?_
  split
  · exact .ret (h.rest rfl rfl rfl rfl rfl rfl)
  split
  · exact .ret h
  · exact .bind (fun _ hx => load_eq_ret.mp hx) fun x hx => h.fileWrite hx _

theorem Moved.sysRead (h : Moved k e s) (fd : Nat) (valid : Bool) (buf : Nat → UInt8)
    (count : Nat) : (sysRead s t fd valid buf count).Ensures fun p => Moved k e p.1 := by
  unfold Files.sysRead
  split
  · exact .ret h
  refine .after fun console => ?_
  split
  · exact .after fun _ => .ret (h.rest rfl rfl rfl rfl rfl rfl)
  split
  · exact .ret h
  · refine .bind (fun _ hx => load_eq_ret.mp hx) fun x hx => ?_
    exact .bind (h.fileRead hx count) fun _ hs => .ret hs

/-- A call on paths: at most the node it removes goes. -/
theorem moved_path (h : Base k) {call : VfsCall} (hpath : onPaths call) {v : Vfs}
    (hv : vfsCall k.vfs call = .ret v) : Moved k (.path t call) { k with vfs := v } := by
  refine (Moved.start h).step (.vfs (VfsKept.call h.nodes call v hv)) ?_
  have hsame (n : Nat) := sameNode_call h.nodes hpath hv (n := n)
  cases hr : call.removes k.vfs with
  | none =>
      refine .inl fun f x n hx hn => hsame n ((h.file f x hx).2 n hn) ?_
      rw [hr]
      nofun
  | some a =>
      refine .inr ⟨t, call, a, rfl, rfl, hr, fun n hlt hne => hsame n hlt ?_⟩
      rw [hr]
      exact fun heq => hne (Option.some.inj heq).symm

end Calls

/-- Every event is a run of moves. -/
theorem run_moved {k : Kernel} {e : FdEvent} (hk : Base k)
    (hactor : ∀ t, e.actor = some t → t ∈ k.tasks) : (e.run k).Ensures (Moved k e) := by
  have h : Moved k e k := .start hk
  have hcall {x : Exec (Kernel × Int)} (hx : x.Ensures fun p => Moved k e p.1) :
      (x >>= fun p => Exec.ret p.1).Ensures (Moved k e) := .bind hx fun _ hp => .ret hp
  cases e with
  | openPath t c path flags stale => exact hcall (h.sysOpen (hactor t rfl) c path flags id)
  | pipe t stale stale' => exact hcall (h.sysPipe (hactor t rfl) ⟨_, _, rfl⟩ rfl)
  | socket t domain type protocol => exact hcall (h.sysSocket (hactor t rfl) domain type protocol)
  | dup t fd => exact hcall (h.sysDup (hactor t rfl) fd)
  | dup2 t oldfd newfd => exact hcall (h.sysDup2 (hactor t rfl) oldfd newfd)
  | close t fd =>
      refine hcall ?_
      unfold sysClose
      split
      · exact .bind (h.releaseFd (hactor t rfl) _) fun _ hs => .ret hs.1
      · exact .ret h
  | fork t => exact hcall (h.forkTask (hactor t rfl))
  | exit t => exact h.taskExit (hactor t rfl)
  | kill t target =>
      show (sysKill k t target).Ensures _
      unfold sysKill
      split
      · exact h.taskExit (hactor t rfl)
      · exact .ret (h.rest rfl rfl rfl rfl rfl rfl)
  | wait t c =>
      show (wait4 k t c).Ensures _
      unfold wait4
      split
      · rename_i hfound
        exact .ret (h.step (.leave hfound.1) ⟨rfl, t, rfl, hfound⟩)
      · exact .ret h
  | spawn stale => exact h.createUserTask id
  | write t fd buffer => exact hcall (h.sysWrite fd buffer)
  | read t fd valid buf count => exact .bind (h.sysRead fd valid buf count) fun _ hp => .ret hp
  | shutdown t fd =>
      show (sysShutdown k t fd).Ensures _
      unfold sysShutdown
      split
      · exact .ret h
      refine .after fun x => ?_
      split
      · exact .ret h
      · exact .undefined
      · exact .ret (h.rest rfl rfl rfl rfl rfl rfl)
  | sockCall t fd e =>
      show (sysSockCall k t fd e).Ensures _
      unfold sysSockCall
      split
      · exact .ret h
      refine .after fun x => ?_
      split
      · exact .ret h
      · exact .undefined
      · refine .ret ?_
        split
        · exact h.rest rfl rfl rfl rfl rfl rfl
        · exact h
  | segment seg => exact .ret (h.rest rfl rfl rfl rfl rfl rfl)
  | path t call =>
      show Exec.Ensures (if onPaths call then _ else _) _
      split
      · rename_i hpath
        exact .bind (fun _ hv => hv) fun v hv => .ret (moved_path hk hpath hv)
      · exact .ret h

/-- What every move keeps holds in every state that is reached. -/
theorem reachVia_moves {G : Kernel → FdEvent → Prop} {I : Kernel → Prop}
    (hboot : ∀ k, KernelBoot k → I k)
    (hmove : ∀ k e s m s', G k e → Base s → I s → Allowed k e s m → MoveStep s m s' → I s')
    {k : Kernel} (h : fdSystem.ReachVia G k) : Base k ∧ I k := by
  refine System.ReachVia.invariant (I := fun k => Base k ∧ I k) ?_ ?_ h
  · exact fun k hk => ⟨.boot hk, hboot k hk⟩
  · rintro k e k' ⟨hbase, hi⟩ hg ⟨hactor, hrun⟩
    have hmoved := run_moved hbase hactor k' hrun
    refine ⟨hmoved.base, ?_⟩
    have hboth : Base k' ∧ I k' := by
      refine System.ReachVia.invariant (I := fun s => Base s ∧ I s) ?_ ?_ hmoved.reach
      · rintro s rfl
        exact ⟨hbase, hi⟩
      · rintro s m s' ⟨hb, hi⟩ ha hs
        exact ⟨hb.step ha hs, hmove k e s m s' hg hb hi ha hs⟩
    exact hboth.2

end LiteBSD.Files
