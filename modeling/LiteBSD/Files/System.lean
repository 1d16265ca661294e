/-
# `LiteBSD.Files.System` — the calls as a state machine

The events are the system calls that touch descriptors, open files, sockets
or the file system, made by any task on the ready queue in any order, and
what arrives from the network in between.  A call that does not return (it
stops the machine, waits for ever, or uses memory that is not there) has no
next state.

`Exec.Ensures` is the logic the following modules argue in: an invariant is
carried through a call from one of its parts to the next.
-/
import LiteBSD.Lib.Runs
import LiteBSD.Net.Close
import LiteBSD.Vfs.Steps
import LiteBSD.Files.Transfer

namespace LiteBSD.Files

open Lib

/-- `sys_shutdown_call`: the socket is closed, its descriptor is not. -/
def sysShutdown (k : Kernel) (t fd : Nat) : Exec Kernel :=
  match k.fdAt t fd with
  | none => .ret k
  | some f => do
      let x ← k.load f
      match x.sock with
      | .null => .ret k
      | .wild => .undefined
      | .slot i => .ret { k with net := (sockClose k.net i).1 }

/-- A call on the socket of a descriptor: `sys_bind_call` and so on. -/
def sysSockCall (k : Kernel) (t fd : Nat) (e : CloseEvent) : Exec Kernel :=
  match k.fdAt t fd with
  | none => .ret k
  | some f => do
      let x ← k.load f
      match x.sock with
      | .null => .ret k
      | .wild => .undefined
      | .slot i => .ret (if e.isCall then { k with net := e.run i k.net } else k)

/-- The calls of the file system that take a path. -/
def onPaths : VfsCall → Bool
  | .unlink .. | .mkdir .. | .link .. | .symlink .. | .rename .. | .rmdir .. => true
  | _ => false

inductive FdEvent where
  | openPath (t : Nat) (c : Caller) (path : CStr) (flags : Nat) (stale : SockPtr)
  | pipe (t : Nat) (stale stale' : SockPtr)
  | socket (t domain type protocol : Nat)
  | dup (t fd : Nat)
  | dup2 (t oldfd newfd : Nat)
  | close (t fd : Nat)
  | fork (t : Nat)
  | exit (t : Nat)
  | kill (t target : Nat)
  | wait (t c : Nat)
  | spawn (stale : Fin maxFds → SockPtr)
  | write (t fd : Nat) (buffer : Option (List UInt8))
  | read (t fd : Nat) (valid : Bool) (buf : Nat → UInt8) (count : Nat)
  | shutdown (t fd : Nat)
  | sockCall (t fd : Nat) (e : CloseEvent)
  | segment (seg : Segment)
  | path (t : Nat) (call : VfsCall)

namespace FdEvent

/-- The task that makes the call. -/
def actor : FdEvent → Option Nat
  | openPath t .. | pipe t .. | socket t .. | dup t _ | dup2 t .. | close t _ | fork t | exit t
  | kill t _ | wait t _ | write t .. | read t .. | shutdown t _ | sockCall t .. | path t _ => some t
  | spawn _ | segment _ => none

def run (k : Kernel) : FdEvent → Exec Kernel
  | openPath t c p flags stale => do let (k, _) ← sysOpen k t c p flags stale; .ret k
  | pipe t stale stale' => do let (k, _) ← sysPipe k t stale stale'; .ret k
  | socket t domain type protocol => do let (k, _) ← sysSocket k t domain type protocol; .ret k
  | dup t fd => do let (k, _) ← sysDup k t fd; .ret k
  | dup2 t oldfd newfd => do let (k, _) ← sysDup2 k t oldfd newfd; .ret k
  | close t fd => do let (k, _) ← sysClose k t fd; .ret k
  | fork t => do let (k, _) ← forkTask k t; .ret k
  | exit t => taskExit k t
  | kill t target => sysKill k t target
  | wait t c => wait4 k t c
  | spawn stale => createUserTask k stale
  | write t fd buffer => do let (k, _) ← sysWrite k t fd buffer; .ret k
  | read t fd valid buf count => do let (k, _, _) ← sysRead k t fd valid buf count; .ret k
  | shutdown t fd => sysShutdown k t fd
  | sockCall t fd e => sysSockCall k t fd e
  | segment seg => .ret { k with net := socketTcpInput k.net seg }
  | path _ call =>
      if onPaths call then do
        let v ← vfsCall k.vfs call
        .ret { k with vfs := v }
      else .ret k

end FdEvent

/-- No task, no file and no socket yet; the file system holds its root. -/
structure KernelBoot (k : Kernel) : Prop where
  tasks : k.tasks = []
  file : ∀ f, k.file f = none
  made : ∀ f, k.made f = none
  released : ∀ f, k.released f = []
  block : ∀ b, k.block b = none
  vfs : k.vfs = emptyVfs k.vfs.mem k.vfs.fb
  net : NetBoot k.net

def fdSystem : System Kernel FdEvent where
  init := KernelBoot
  step := fun k e k' => (∀ t, e.actor = some t → t ∈ k.tasks) ∧ e.run k = .ret k'

/-- Several events in a row, each by a task that is there. -/
def runAll (k : Kernel) : List FdEvent → Exec Kernel
  | [] => .ret k
  | e :: es =>
      if ∀ t ∈ e.actor, t ∈ k.tasks then do
        let k ← e.run k
        runAll k es
      else .undefined

/-- Events in a row are a run, of any system that has these steps. -/
theorem reach_runAll_of {S : System Kernel FdEvent} (hstep : ∀ k e k', fdSystem.step k e k' → S.step k e k')
    {G : Kernel → FdEvent → Prop} {k k' : Kernel} {es : List FdEvent} (h : S.ReachVia G k)
    (hg : ∀ e ∈ es, ∀ k, G k e) (hrun : runAll k es = .ret k') : S.ReachVia G k' := by
  induction es generalizing k with
  | nil =>
      cases hrun
      exact h
  | cons e es ih =>
      rw [runAll] at hrun
      split at hrun
      · rename_i hactor
        rw [Exec.bind_eq_ret] at hrun
        obtain ⟨k₁, hk₁, hrun⟩ := hrun
        exact ih (.step h (hg e List.mem_cons_self k) (hstep k e k₁ ⟨hactor, hk₁⟩))
          (fun e' he' => hg e' (List.mem_cons_of_mem e he')) hrun
      · cases hrun

theorem reach_runAll {G : Kernel → FdEvent → Prop} {k k' : Kernel} {es : List FdEvent}
    (h : fdSystem.ReachVia G k) (hg : ∀ e ∈ es, ∀ k, G k e) (hrun : runAll k es = .ret k') :
    fdSystem.ReachVia G k' := reach_runAll_of (fun _ _ _ hs => hs) h hg hrun

/-- A kernel at boot in which every allocation succeeds. -/
def quietKernel : Kernel :=
  { tasks := [], owner := fun _ => ⟨0, 0, false⟩, fd := fun _ => none, file := fun _ => none
    pipe := fun _ => none, vfs := emptyVfs (memoryOf 0) none, net := bootNet
    con := ⟨true, true, 1, [], [], []⟩, nextPid := 1, nullCount := 0, made := fun _ => none
    released := fun _ => [], block := fun _ => none }

theorem quietKernel_boot : fdSystem.init quietKernel :=
  ⟨rfl, fun _ => rfl, fun _ => rfl, fun _ => rfl, fun _ => rfl, rfl, fun _ => ⟨rfl, rfl, rfl⟩, rfl, rfl⟩

/-! ## Parts of the calls -/

section Parts

variable {k k' : Kernel} {t : Nat}

@[simp] theorem load_eq_ret {f : Nat} {x : File} : k.load f = .ret x ↔ k.file f = some x := by
  unfold Kernel.load
  cases k.file f <;> simp

@[simp] theorem setFile_file (f : Nat) (x : File) :
    (k.setFile f x).file = Function.update k.file f (some x) := rfl

@[simp] theorem putFile_file (f : Nat) (held : Held) (x : File) :
    (k.putFile f held x).file = Function.update k.file f (some x) := rfl

@[simp] theorem freeFile_file (f : Nat) (held : Held) :
    (k.freeFile f held).file = Function.update k.file f none := rfl

@[simp] theorem setFd_fd (i : Fin maxFds) (p : Option Nat) :
    (k.setFd t i p).fd = Function.update k.fd (t, i) p := rfl

/-- `kmalloc` changes the supply of addresses, from which it takes the next. -/
theorem kmalloc_ensures (k : Kernel) (size : Nat) :
    (k.kmalloc size).Ensures fun p => ∃ v, p.1 = { k with vfs := v } ∧ Untouched k.vfs v ∧
      ∀ a, p.2 = some a → a = k.vfs.nextObj ∧ v.nextObj = k.vfs.nextObj + 1 := by
  rintro ⟨k', p⟩ h
  rw [Kernel.kmalloc, Exec.bind_eq_ret] at h
  obtain ⟨⟨v, q⟩, hv, h⟩ := h
  cases h
  exact ⟨v, rfl, .kmalloc hv, (Vfs.kmalloc_ret hv).2⟩

/-- What the file system keeps of itself through every call. -/
structure VfsKept (v v' : Vfs) : Prop where
  nodes : NodeTable v'
  supply : v.nextObj ≤ v'.nextObj

theorem VfsKept.refl {v : Vfs} (h : NodeTable v) : VfsKept v v := ⟨h, Nat.le_refl _⟩

theorem VfsKept.trans {v v' v'' : Vfs} (h : VfsKept v v') (h' : VfsKept v' v'') : VfsKept v v'' :=
  ⟨h'.nodes, Nat.le_trans h.supply h'.supply⟩

theorem VfsKept.call {v : Vfs} (h : NodeTable v) (call : VfsCall) :
    (vfsCall v call).Ensures (VfsKept v) :=
  fun _ hs => ⟨h.step hs, h.supply_step hs⟩

theorem VfsKept.vfsOpen {v : Vfs} (h : NodeTable v) (c : Caller) (path : CStr) (flags : Nat) :
    (vfsOpen v c path flags).Ensures fun p => VfsKept v p.1 := by
  rintro ⟨w, p⟩ hw
  exact VfsKept.call h (.openPath c path flags) w (by rw [vfsCall, hw]; rfl)

theorem VfsKept.vfsClose {v : Vfs} (h : NodeTable v) (n : Nat) :
    (vfsClose v n).Ensures fun p => VfsKept v p.1 := by
  rintro ⟨w, p⟩ hw
  exact VfsKept.call h (.close n) w (by rw [vfsCall, hw]; rfl)

theorem VfsKept.vfsWrite {v : Vfs} (h : NodeTable v) (n offset : Nat) (buf : List UInt8) :
    (vfsWrite v n offset buf).Ensures fun p => VfsKept v p.1 := by
  rintro ⟨w, p⟩ hw
  exact VfsKept.call h (.write n offset buf) w (by rw [vfsCall, hw]; rfl)

theorem VfsKept.truncOnOpen {v : Vfs} (h : NodeTable v) (n flags : Nat) :
    (truncOnOpen v n flags).Ensures (VfsKept v) := by
  unfold Files.truncOnOpen
  split
  · refine .bind (P := fun p => VfsKept v p.1) ?_ fun _ hp => .ret hp
    rintro ⟨w, p⟩ hw
    exact VfsKept.call h (.truncate n 0) w (by rw [vfsCall, hw]; rfl)
  · exact .ret (.refl h)

theorem VfsKept.untouched {v v' : Vfs} (h : NodeTable v) (hu : Untouched v v') : VfsKept v v' :=
  ⟨h.of_untouched hu, hu.supply⟩

theorem closeFile_fd {f : Nat} {x : File} (h : closeFile k f x = .ret k') : k'.fd = k.fd := by
  unfold closeFile at h
  split at h
  · split at h
    · cases h
    · cases h
      rfl
  · cases h
    rfl
  · cases h
  · rw [Exec.bind_eq_ret] at h
    obtain ⟨⟨v, r⟩, _, h⟩ := h
    cases h
    rfl
  · cases h
    rfl

/-- `release_fd` empties its slot and no other. -/
theorem releaseFd_fd {i : Fin maxFds} (h : releaseFd k t i = .ret k') :
    k'.fd = Function.update k.fd (t, i) none := by
  unfold releaseFd at h
  split at h
  · rename_i hnone
    cases h
    rw [← hnone, Function.update_eq_self]
  · rw [Exec.bind_eq_ret] at h
    obtain ⟨x, _, h⟩ := h
    rw [Exec.bind_eq_ret] at h
    obtain ⟨k₁, hk₁, h⟩ := h
    cases h
    show Function.update k₁.fd _ _ = _
    unfold dropFile at hk₁
    split at hk₁
    · rw [closeFile_fd hk₁]
    · cases hk₁
      rfl

end Parts

/-! ## The blocks of `sys_pipe` -/

/-- The next four allocations succeed. -/
def FourBlocks (k : Kernel) : Prop := ∀ i < 4, k.vfs.mem.outcome (k.vfs.nextObj + i) = .block

/-- The kernel `n` addresses later, with these blocks held. -/
def drawnTo (k : Kernel) (n : Nat) (block : Nat → Option Nat) : Kernel :=
  { k with vfs := { k.vfs with nextObj := k.vfs.nextObj + n }, block := block }

/-- Besides those in `l`, the blocks held are those of `k`: what was taken
meanwhile is no more held. -/
def HeldBut (k : Kernel) (block : Nat → Option Nat) (l : List Nat) : Prop :=
  ∀ b, b ∈ l ∨ block b = k.block b ∨ k.vfs.nextObj ≤ b ∧ block b = none

section PipeBlocks

variable {k k' : Kernel} {block : Nat → Option Nat} {l : List Nat} {n b t : Nat} {stale stale' : SockPtr}

theorem untouched_drawnTo (k : Kernel) (n : Nat) (block : Nat → Option Nat) : Untouched k.vfs (drawnTo k n block).vfs :=
  ⟨rfl, rfl, rfl, rfl, rfl, Nat.le_add_right _ _⟩

theorem HeldBut.start (k : Kernel) : HeldBut k k.block [] := fun _ => .inr (.inl rfl)

theorem HeldBut.take (h : HeldBut k block l) (b : Nat) (size : Option Nat) :
    HeldBut k (Function.update block b size) (b :: l) := by
  intro c
  by_cases hc : c = b
  · exact .inl (hc ▸ List.mem_cons_self)
  · rw [Function.update_of_ne hc]
    exact (h c).imp_left (List.mem_cons_of_mem _)

theorem HeldBut.give (h : HeldBut k block l) (hb : k.vfs.nextObj ≤ b) :
    HeldBut k (Function.update block b none) (l.filter (· ≠ b)) := by
  intro c
  by_cases hc : c = b
  · rw [hc, Function.update_self]
    exact .inr (.inr ⟨hb, rfl⟩)
  · rw [Function.update_of_ne hc, List.mem_filter]
    exact (h c).imp_left fun hmem => ⟨hmem, decide_eq_true hc⟩

/-- With nothing held above the supply at first, all is as it was. -/
theorem HeldBut.all (h : HeldBut k block []) (hfresh : ∀ b, k.vfs.nextObj ≤ b → k.block b = none) : block = k.block := by
  funext b
  rcases h b with hmem | hsame | ⟨hb, hnone⟩
  · cases hmem
  · exact hsame
  · rw [hnone, hfresh b hb]

theorem takeBlock_drawnTo {size : Nat} {p : Option Nat} (hpos : size ≠ 0) (hmax : size ≤ heapSize - headerSize)
    (h : (drawnTo k n block).takeBlock size = .ret (k', p)) :
    p = some (k.vfs.nextObj + n) ∧ k.vfs.mem.outcome (k.vfs.nextObj + n) = .block ∧
        k' = drawnTo k (n + 1) (Function.update block (k.vfs.nextObj + n) (some size)) ∨
      p = none ∧ k.vfs.mem.outcome (k.vfs.nextObj + n) = .null ∧ k' = drawnTo k (n + 1) block := by
  obtain ⟨⟨k₁, q⟩, hk₁, h⟩ := Exec.bind_eq_ret.mp h
  obtain ⟨⟨v, q'⟩, hv, hk₁⟩ := Exec.bind_eq_ret.mp hk₁
  cases hk₁
  obtain ⟨rfl, ⟨rfl, hblock⟩ | ⟨rfl, hnull⟩⟩ := kmalloc_small hpos hmax hv
  · cases h
    exact .inl ⟨rfl, hblock, rfl⟩
  · cases h
    exact .inr ⟨rfl, hnull, rfl⟩

theorem kfreeBlock_drawnTo (h : (drawnTo k n block).kfreeBlock b = .ret k') :
    k' = drawnTo k n (Function.update block b none) := by
  unfold Kernel.kfreeBlock at h
  split at h
  · cases h
  · cases h
    rfl

theorem HeldBut.mono (h : HeldBut k block l) {l' : List Nat} (hl : ∀ b ∈ l, b ∈ l') : HeldBut k block l' :=
  fun b => (h b).imp_left (hl b)

theorem kfreeTaken_drawnTo {p : Option Nat} (h : (drawnTo k n block).kfreeTaken p = .ret k')
    (hp : ∀ b, p = some b → k.vfs.nextObj ≤ b) (hbut : HeldBut k block l) :
    ∃ block', k' = drawnTo k n block' ∧ HeldBut k block' (l.filter fun b => p ≠ some b) := by
  cases p with
  | none =>
      cases h
      refine ⟨block, rfl, hbut.mono fun b hb => ?_⟩
      rw [List.mem_filter]
      exact ⟨hb, decide_eq_true nofun⟩
  | some b =>
      refine ⟨_, kfreeBlock_drawnTo h, (hbut.give (hp b rfl)).mono fun c hc => ?_⟩
      rw [List.mem_filter, decide_eq_true_iff] at hc ⊢
      exact ⟨hc.1, fun he => hc.2 (Option.some.inj he).symm⟩

theorem giveBack_drawnTo {p : Nat} {r w : Option Nat} (h : giveBack (drawnTo k n block) p b r w = .ret k')
    (hbut : HeldBut k block l) (hall : ∀ c ∈ l, c = p ∨ c = b ∨ r = some c ∨ w = some c)
    (hnew : ∀ c, c = p ∨ c = b ∨ r = some c ∨ w = some c → k.vfs.nextObj ≤ c) :
    ∃ block', k' = drawnTo k n block' ∧ HeldBut k block' [] := by
  obtain ⟨k₁, hk₁, h⟩ := Exec.bind_eq_ret.mp h
  obtain ⟨block₁, rfl, h₁⟩ := kfreeTaken_drawnTo hk₁ (fun c hc => hnew c (.inr (.inr (.inl hc)))) hbut
  obtain ⟨k₂, hk₂, h⟩ := Exec.bind_eq_ret.mp h
  obtain ⟨block₂, rfl, h₂⟩ := kfreeTaken_drawnTo hk₂ (fun c hc => hnew c (.inr (.inr (.inr hc)))) h₁
  obtain ⟨k₃, hk₃, h⟩ := Exec.bind_eq_ret.mp h
  obtain rfl := kfreeBlock_drawnTo hk₃
  refine ⟨_, kfreeBlock_drawnTo h, ((h₂.give (hnew b (.inr (.inl rfl)))).give (hnew p (.inl rfl))).mono fun c hc => ?_⟩
  simp only [List.mem_filter, decide_eq_true_eq] at hc
  obtain ⟨⟨⟨⟨hmem, hr⟩, hw⟩, hcb⟩, hcp⟩ := hc
  rcases hall c hmem with he | he | he | he
  · exact absurd he hcp
  · exact absurd he hcb
  · exact absurd he hr
  · exact absurd he hw

/-- `sys_pipe` as far as the descriptors: what it has taken, it gives back or
makes a pipe and two files of. -/
theorem sysPipe_blocks {ret : Int} (h : sysPipe k t stale stale' = .ret (k', ret)) : ∃ block, HeldBut k block [] ∧
    ((¬FourBlocks k ∧ ret = -1 ∧ ∃ n, k' = drawnTo k n block) ∨
      (FourBlocks k ∧ openPipe (drawnTo k 4 block) t k.vfs.nextObj (k.vfs.nextObj + 2) (k.vfs.nextObj + 3) stale stale' =
        .ret (k', ret))) := by
  have hmissing : ∀ {n}, n < 4 → k.vfs.mem.outcome (k.vfs.nextObj + n) = .null → ¬FourBlocks k := by
    intro n hn hnull hfour
    rw [hfour n hn] at hnull
    cases hnull
  have hnew : ∀ n, k.vfs.nextObj ≤ k.vfs.nextObj + n := Nat.le_add_right _
  have h₀ := HeldBut.start k
  obtain ⟨⟨k₁, p⟩, hp, h⟩ := Exec.bind_eq_ret.mp h
  have hp' : (drawnTo k 0 k.block).takeBlock pipeStructSize = .ret (k₁, p) := hp
  rcases takeBlock_drawnTo (by decide) (by decide) hp' with ⟨rfl, ho₀, rfl⟩ | ⟨rfl, ho₀, rfl⟩
  case inr =>
    cases h
    exact ⟨_, h₀, .inl ⟨hmissing (by decide) ho₀, rfl, _, rfl⟩⟩
  have h₁ := h₀.take (k.vfs.nextObj + 0) (some pipeStructSize)
  obtain ⟨⟨k₂, b⟩, hb, h⟩ := Exec.bind_eq_ret.mp h
  rcases takeBlock_drawnTo (by decide) (by decide) hb with ⟨rfl, ho₁, rfl⟩ | ⟨rfl, ho₁, rfl⟩
  case inr =>
    obtain ⟨k₃, hk₃, h⟩ := Exec.bind_eq_ret.mp h
    obtain rfl := kfreeBlock_drawnTo hk₃
    cases h
    refine ⟨_, (h₁.give (hnew 0)).mono fun c hc => ?_, .inl ⟨hmissing (by decide) ho₁, rfl, _, rfl⟩⟩
    simp at hc
  have h₂ := h₁.take (k.vfs.nextObj + 1) (some pipeSize)
  obtain ⟨⟨k₃, r⟩, hr, h⟩ := Exec.bind_eq_ret.mp h
  obtain ⟨⟨k₄, w⟩, hw, h⟩ := Exec.bind_eq_ret.mp h
  rcases takeBlock_drawnTo (by decide) (by decide) hr with ⟨rfl, ho₂, rfl⟩ | ⟨rfl, ho₂, rfl⟩
  · have h₃ := h₂.take (k.vfs.nextObj + 2) (some fileSize)
    rcases takeBlock_drawnTo (by decide) (by decide) hw with ⟨rfl, ho₃, rfl⟩ | ⟨rfl, ho₃, rfl⟩
    · have h₄ := h₃.take (k.vfs.nextObj + 3) (some fileSize)
      have hused := (((h₄.give (hnew 0)).give (hnew 1)).give (hnew 2)).give (hnew 3)
      refine ⟨_, hused.mono fun c hc => ?_, .inr ⟨fun i hi => ?_, h⟩⟩
      · simp only [List.mem_filter, List.mem_cons, List.not_mem_nil, or_false, decide_eq_true_eq] at hc
        omega
      · have hcases : i = 0 ∨ i = 1 ∨ i = 2 ∨ i = 3 := by omega
        rcases hcases with rfl | rfl | rfl | rfl
        · exact ho₀
        · exact ho₁
        · exact ho₂
        · exact ho₃
    · obtain ⟨k₅, hk₅, h⟩ := Exec.bind_eq_ret.mp h
      obtain ⟨block, rfl, hbut⟩ := giveBack_drawnTo hk₅ h₃ (by simp) (by simp)
      cases h
      exact ⟨block, hbut, .inl ⟨hmissing (by decide) ho₃, rfl, _, rfl⟩⟩
  · rcases takeBlock_drawnTo (by decide) (by decide) hw with ⟨rfl, -, rfl⟩ | ⟨rfl, -, rfl⟩
    · have h₃ := h₂.take (k.vfs.nextObj + 3) (some fileSize)
      obtain ⟨k₅, hk₅, h⟩ := Exec.bind_eq_ret.mp h
      obtain ⟨block, rfl, hbut⟩ := giveBack_drawnTo hk₅ h₃ (by simp) (by simp)
      cases h
      exact ⟨block, hbut, .inl ⟨hmissing (by decide) ho₂, rfl, _, rfl⟩⟩
    · obtain ⟨k₅, hk₅, h⟩ := Exec.bind_eq_ret.mp h
      obtain ⟨block, rfl, hbut⟩ := giveBack_drawnTo hk₅ h₂ (by simp) (by simp)
      cases h
      exact ⟨block, hbut, .inl ⟨hmissing (by decide) ho₂, rfl, _, rfl⟩⟩

end PipeBlocks

end LiteBSD.Files
