/-
# `LiteBSD.Files.Backing` — one file, one object behind it

A `struct file` has three pointers, and `release_fd` decides by them what it
gives back: the end of a pipe before a socket, a socket before a node.  That
is the object the file was made for as long as the other two pointers are
`NULL`.  `sys_socket_call` and `sys_accept_call` store all three; `sys_open`,
`sys_pipe` and `create_user_task` store two, and the third, `sock`, is what
the memory held before.

`backing_while_null` is about every run in which that is `NULL`.  `accept` is
an event here: its queue is part of the state, although nothing in the source
puts a socket into it.
-/
import LiteBSD.Files.Moves

namespace LiteBSD.Files

open Lib

/-! ## `accept` -/

/-- The sockets that wait for `accept`, for each socket that listens. -/
abbrev AcceptQueues := Fin maxSockets → List (Fin maxSockets)

def sockAccept (net : Net) (q : AcceptQueues) (i : Fin maxSockets) :
    AcceptQueues × Option (Fin maxSockets) :=
  if (net.slot i).tcpState ≠ .listen then (q, none)
  else
    match q i with
    | [] => (q, none)
    | child :: rest => (Function.update q i rest, some child)

/-- A file for the socket `s`, as `sys_socket_call` and `sys_accept_call` make it. -/
def sockFile (s : Fin maxSockets) : File :=
  { node := none, offset := 0, flags := 0, refCount := 1, pipe := none, pipeEnd := 0
    sock := .slot s }

/-- `sys_accept_call` once there is a socket for it. -/
def openAccepted (k : Kernel) (t : Nat) (s : Fin maxSockets) : Exec (Kernel × Int) := do
  let (k, p) ← k.kmalloc fileSize
  match p with
  | none => .ret ({ k with net := sockDestroy k.net s }, -1)
  | some f =>
      let k := k.putFile f (.sock s) (sockFile s)
      match allocFd k t f with
      | (k, some i) => .ret (k, i.val)
      | (k, none) => .ret ({ k with net := sockDestroy k.net s }.freeFile f (.sock s), -1)

def sysAccept (k : Kernel) (q : AcceptQueues) (t fd : Nat) : Exec (Kernel × AcceptQueues × Int) :=
  match k.fdAt t fd with
  | none => .ret (k, q, -1)
  | some f => do
      let x ← k.load f
      match x.sock with
      | .null => .ret (k, q, -1)
      | .wild => .undefined
      | .slot i =>
          match sockAccept k.net q i with
          | (q, none) => .ret (k, q, -1)
          | (q, some s) => do
              let (k, r) ← openAccepted k t s
              .ret (k, q, r)

structure AcceptKernel where
  kernel : Kernel
  queue : AcceptQueues

inductive AcceptEvent where
  | fd (e : FdEvent)
  | accept (t fd : Nat)

/-- The calls on descriptors, and `accept` with them. -/
def acceptSystem : System AcceptKernel AcceptEvent where
  init := fun a => KernelBoot a.kernel
  step := fun a e a' =>
    match e with
    | .fd e => fdSystem.step a.kernel e a'.kernel ∧ a'.queue = a.queue
    | .accept t fd => t ∈ a.kernel.tasks ∧
        ∃ r, sysAccept a.kernel a.queue t fd = .ret (a'.kernel, a'.queue, r)

/-! ## What is behind a file -/

/-- The three pointers of a file. -/
def File.backing (x : File) : Option Nat × Option Nat × SockPtr := (x.node, x.pipe, x.sock)

/-- How many of them are not `NULL`. -/
def File.backings (x : File) : Nat :=
  (if x.node = none then 0 else 1) + (if x.pipe = none then 0 else 1) +
    if x.sock = .null then 0 else 1

/-- The file is what it has to be if it was made for `held`. -/
def Held.Backs (x : File) : Held → Prop
  | .console => x.backing = (none, none, .null)
  | .node n => x.backing = (some n, none, .null)
  | .readEnd p => x.backing = (none, some p, .null) ∧ x.pipeEnd = 0
  | .writeEnd p => x.backing = (none, some p, .null) ∧ x.pipeEnd ≠ 0
  | .sock i => x.backing = (none, none, .slot i)

/-- Every file in a slot has one object behind it, or none if it is the
console, and `release_fd` gives back what the file was made for. -/
structure OneBacking (k : Kernel) : Prop where
  one : ∀ t ∈ k.tasks, ∀ i f x, k.fd (t, i) = some f → k.file f = some x →
    x.backings ≤ 1 ∧ (k.made f = some .console → x.backings = 0)
  release : ∀ t ∈ k.tasks, ∀ i f k', k.fd (t, i) = some f → releaseFd k t i = .ret k' →
    if k'.file f = none then
      ∃ held, k.made f = some held ∧ k'.released = Function.update k.released f
        (k.released f ++ [held])
    else k'.released = k.released

/-- The memory of a new file holds `NULL` where the file has its socket. -/
def NullMemory : AcceptEvent → Prop
  | .fd (.openPath _ _ _ _ stale) => stale = .null
  | .fd (.pipe _ stale stale') => stale = .null ∧ stale' = .null
  | .fd (.spawn stale) => ∀ i, stale i = .null
  | _ => True

section Backs

variable {x y : File} {held : Held}

theorem Held.Backs.congr (h : held.Backs x) (hb : y.backing = x.backing)
    (hend : y.pipeEnd = x.pipeEnd) : held.Backs y := by
  cases held <;> simpa only [Held.Backs, hb, hend] using h

theorem Held.Backs.backings (h : held.Backs x) :
    x.backings ≤ 1 ∧ (held = .console → x.backings = 0) := by
  cases held <;> simp only [Held.Backs, File.backing, Prod.mk.injEq] at h <;>
    simp [File.backings, h]

/-- What `release_fd` gives back is what the file was made for. -/
theorem Held.Backs.held_eq (h : held.Backs x) : x.held = some held := by
  cases held <;> simp only [Held.Backs, File.backing, Prod.mk.injEq] at h <;>
    simp [File.held, h]

end Backs

/-! ## Stores that keep it -/

/-- Every file is what it was made for. -/
structure Backed (k : Kernel) : Prop where
  nodes : NodeTable k.vfs
  made : ∀ f, k.made f ≠ none → f < k.vfs.nextObj
  file : ∀ f x, k.file f = some x → ∃ held, k.made f = some held ∧ held.Backs x

section Stores

variable {k k' : Kernel} {f : Nat} {x y : File} {held : Held}

theorem Backed.rest (h : Backed k) (hvfs : k'.vfs = k.vfs) (hfile : k'.file = k.file)
    (hmade : k'.made = k.made) : Backed k' := by
  refine ⟨hvfs ▸ h.nodes, ?_, ?_⟩
  · rw [hmade, hvfs]
    exact h.made
  · rw [hfile, hmade]
    exact h.file

theorem Backed.vfs (h : Backed k) {v : Vfs} (hv : VfsKept k.vfs v) :
    Backed { k with vfs := v } :=
  ⟨hv.nodes, fun f hf => Nat.lt_of_lt_of_le (h.made f hf) hv.supply, h.file⟩

theorem Backed.setFile (h : Backed k) (hx : k.file f = some x) (hb : y.backing = x.backing)
    (hend : y.pipeEnd = x.pipeEnd) : Backed (k.setFile f y) := by
  refine ⟨h.nodes, h.made, fun g z hz => ?_⟩
  rcases file_update hz with ⟨rfl, hyz⟩ | ⟨_, hz⟩
  · cases hyz
    obtain ⟨held, hmade, hbacks⟩ := h.file g x hx
    exact ⟨held, hmade, hbacks.congr hb hend⟩
  · exact h.file g z hz

theorem Backed.putFile (h : Backed k) (hf : k.made f = none) (hlt : f < k.vfs.nextObj)
    (hb : held.Backs x) : Backed (k.putFile f held x) := by
  refine ⟨h.nodes, fun g hg => ?_, fun g z hz => ?_⟩
  · by_cases hgf : g = f
    · exact hgf ▸ hlt
    · refine h.made g ?_
      rwa [← Function.update_of_ne hgf (some held) k.made]
  · rcases file_update hz with ⟨rfl, hxz⟩ | ⟨hg, hz⟩
    · cases hxz
      exact ⟨held, Function.update_self _ _ _, hb⟩
    · obtain ⟨held', hmade, hbacks⟩ := h.file g z hz
      refine ⟨held', ?_, hbacks⟩
      rw [← hmade]
      exact Function.update_of_ne hg _ _

/-- A file is freed. -/
theorem Backed.freed (h : Backed k) (hvfs : k'.vfs = k.vfs)
    (hfile : k'.file = Function.update k.file f none) (hmade : k'.made = k.made) : Backed k' := by
  refine ⟨hvfs ▸ h.nodes, ?_, fun g z hz => ?_⟩
  · rw [hmade, hvfs]
    exact h.made
  · rw [hfile] at hz
    rcases file_update hz with ⟨_, hno⟩ | ⟨_, hz⟩
    · cases hno
    · rw [hmade]
      exact h.file g z hz

/-- `kmalloc` gives an address that nothing was made at. -/
theorem Backed.kmalloc (h : Backed k) (size : Nat) :
    (k.kmalloc size).Ensures fun p => Backed p.1 ∧
      ∀ a, p.2 = some a → p.1.made a = none ∧ a < p.1.vfs.nextObj := by
  refine (kmalloc_ensures k size).mono fun p hp => ?_
  obtain ⟨v, hv, hu, ha⟩ := hp
  rw [hv]
  refine ⟨h.vfs (.untouched h.nodes hu), fun a hpa => ?_⟩
  obtain ⟨rfl, hnext⟩ := ha a hpa
  refine ⟨?_, hnext ▸ Nat.lt_succ_self _⟩
  by_contra hmade
  exact Nat.lt_irrefl _ (h.made _ hmade)

theorem Backed.allocFd (h : Backed k) (t f : Nat) : Backed (allocFd k t f).1 := by
  unfold Files.allocFd
  split
  · exact h
  · exact h.rest rfl rfl rfl

end Stores

/-! ## The calls -/

section Calls

variable {k : Kernel} {t : Nat}

theorem Backed.vfsClose (h : Backed k) (n : Nat) :
    (vfsClose k.vfs n).Ensures fun p => Backed { k with vfs := p.1 } :=
  (VfsKept.vfsClose h.nodes n).mono fun _ hv => h.vfs hv

theorem Backed.closeFile (h : Backed k) (f : Nat) (x : File) :
    (closeFile k f x).Ensures Backed := by
  unfold Files.closeFile
  split
  · split
    · exact .undefined
    · exact .ret (h.freed rfl rfl rfl)
  · exact .ret (h.freed rfl rfl rfl)
  · exact .undefined
  · exact .bind (h.vfsClose _) fun _ hv => .ret (hv.freed rfl rfl rfl)
  · exact .ret (h.freed rfl rfl rfl)

theorem Backed.releaseFd (h : Backed k) (i : Fin maxFds) :
    (releaseFd k t i).Ensures Backed := by
  unfold Files.releaseFd
  split
  · exact .ret h
  refine .bind (fun _ hx => load_eq_ret.mp hx) fun x hx => ?_
  refine .bind (P := Backed) ?_ fun _ hk => .ret (hk.rest rfl rfl rfl)
  unfold dropFile
  split
  · exact h.closeFile _ _
  · exact .ret (h.setFile hx rfl rfl)

theorem Backed.retainFile (h : Backed k) (f : Nat) : (retainFile k f).Ensures Backed :=
  .bind (fun _ hx => load_eq_ret.mp hx) fun _ hx => .ret (h.setFile hx rfl rfl)

/-- A new file gets a slot, or does not. -/
theorem Backed.install (h : Backed k) {k' : Kernel} {f : Nat} {x : File} {held : Held}
    {p : Option (Fin maxFds)} (hf : k.made f = none ∧ f < k.vfs.nextObj) (hb : held.Backs x)
    (halloc : Files.allocFd (k.putFile f held x) t f = (k', p)) : Backed k' := by
  have hk := (h.putFile hf.1 hf.2 hb).allocFd t f
  rwa [halloc] at hk

theorem Backed.openNode (h : Backed k) (n flags : Nat) :
    (openNode k t n flags .null).Ensures fun p => Backed p.1 := by
  unfold Files.openNode
  refine .bind (h.kmalloc _) fun ⟨k₁, p⟩ hk₁ => ?_
  obtain ⟨h₁, hfresh⟩ := hk₁
  cases p with
  | none => exact .bind (h₁.vfsClose n) fun _ hv => .ret hv
  | some f =>
      refine .after fun offset => ?_
      dsimp only
      split <;> rename_i halloc
      · exact .ret (h₁.install (hfresh f rfl) (by rfl) halloc)
      · have h₂ := h₁.install (hfresh f rfl) (by rfl) halloc
        exact .bind (h₂.vfsClose n) fun _ hv => .ret (hv.freed rfl rfl rfl)

theorem Backed.sysOpen (h : Backed k) (c : Caller) (path : CStr) (flags : Nat) :
    (sysOpen k t c path flags .null).Ensures fun p => Backed p.1 := by
  unfold Files.sysOpen
  refine .after fun refused => ?_
  split
  · exact .ret h
  refine .bind (VfsKept.vfsOpen h.nodes c path flags) fun ⟨v, p⟩ hv => ?_
  cases p with
  | none => exact .ret (h.vfs hv)
  | some n =>
      refine .bind (VfsKept.truncOnOpen hv.nodes n flags) fun w hw => ?_
      exact (h.vfs (hv.trans hw)).openNode n flags

theorem Backed.sysSocket (h : Backed k) (domain type protocol : Nat) :
    (sysSocket k t domain type protocol).Ensures fun p => Backed p.1 := by
  unfold Files.sysSocket
  generalize sockCreate k.net domain type protocol = c
  obtain ⟨net, s⟩ := c
  have h₁ : Backed { k with net := net } := h.rest rfl rfl rfl
  cases s with
  | none => exact .ret h₁
  | some s =>
      refine .bind (h₁.kmalloc _) fun ⟨k₂, p⟩ hk₂ => ?_
      obtain ⟨h₂, hfresh⟩ := hk₂
      cases p with
      | none => exact .ret (h₂.rest rfl rfl rfl)
      | some f =>
          dsimp only
          split <;> rename_i halloc
          · exact .ret (h₂.install (hfresh f rfl) (by rfl) halloc)
          · have h₃ := h₂.install (hfresh f rfl) (by rfl) halloc
            exact .ret (h₃.freed rfl rfl rfl)

theorem Backed.sysAccept (h : Backed k) (q : AcceptQueues) (fd : Nat) :
    (sysAccept k q t fd).Ensures fun p => Backed p.1 := by
  unfold Files.sysAccept
  split
  · exact .ret h
  refine .after fun x => ?_
  split
  · exact .ret h
  · exact .undefined
  split
  · exact .ret h
  refine .bind (P := fun p => Backed p.1) ?_ fun _ hk => .ret hk
  unfold openAccepted
  refine .bind (h.kmalloc _) fun ⟨k₁, p⟩ hk₁ => ?_
  obtain ⟨h₁, hfresh⟩ := hk₁
  cases p with
  | none => exact .ret (h₁.rest rfl rfl rfl)
  | some f =>
      dsimp only
      split <;> rename_i halloc
      · exact .ret (h₁.install (hfresh f rfl) (by rfl) halloc)
      · have h₂ := h₁.install (hfresh f rfl) (by rfl) halloc
        exact .ret (h₂.freed rfl rfl rfl)

theorem Backed.openPipe (h : Backed k) {p r w : Nat} (hr : k.made r = none ∧ r < k.vfs.nextObj)
    (hw : k.made w = none ∧ w < k.vfs.nextObj) (hne : w ≠ r) :
    (openPipe k t p r w .null .null).Ensures fun q => Backed q.1 := by
  unfold Files.openPipe
  dsimp only
  generalize hk₁ : ({ k with
    pipe := Function.update k.pipe p (some ⟨⟨fun _ => 0, 0, 0, 0⟩, 1, 1, false⟩) } : Kernel) = k₁
  have h₁ : Backed k₁ := hk₁ ▸ h.rest rfl rfl rfl
  have h₂ : Backed (k₁.putFile r (.readEnd p) (pipeFile p 0 .null)) :=
    h₁.putFile (hk₁ ▸ hr.1) (hk₁ ▸ hr.2) ⟨rfl, rfl⟩
  have hw₂ : (k₁.putFile r (.readEnd p) (pipeFile p 0 .null)).made w = none := by
    rw [← hw.1, ← hk₁]
    exact Function.update_of_ne hne _ _
  have hb : Held.Backs (pipeFile p 1 .null) (.writeEnd p) := ⟨rfl, nofun⟩
  have h₃ := h₂.putFile hw₂ (hk₁ ▸ hw.2) hb
  generalize Kernel.putFile _ w (.writeEnd p) _ = k₃ at h₃ ⊢
  have h₄ := h₃.allocFd t r
  generalize Files.allocFd k₃ t r = a at h₄ ⊢
  obtain ⟨k₄, i⟩ := a
  have h₅ := h₄.allocFd t w
  generalize Files.allocFd k₄ t w = b at h₅ ⊢
  obtain ⟨k₅, j⟩ := b
  cases i with
  | some i =>
      cases j with
      | some j => exact .ret h₅
      | none => exact .bind (h₅.releaseFd i) fun _ hk => .ret hk
  | none =>
      cases j with
      | some j => exact .bind (h₅.releaseFd j) fun _ hk => .ret hk
      | none => exact .ret h₅

theorem Backed.drawnTo (h : Backed k) (n : Nat) (block : Nat → Option Nat) : Backed (drawnTo k n block) :=
  (h.vfs (.untouched h.nodes (untouched_drawnTo k n block))).rest rfl rfl rfl

theorem Backed.sysPipe (h : Backed k) :
    (sysPipe k t .null .null).Ensures fun q => Backed q.1 := by
  rintro ⟨k', ret⟩ hrun
  obtain ⟨block, -, ⟨-, -, n, rfl⟩ | ⟨-, hopen⟩⟩ := sysPipe_blocks hrun
  · exact h.drawnTo n block
  · -- nothing was made at an address from the supply
    have hfresh : ∀ i, (Files.drawnTo k 4 block).made (k.vfs.nextObj + i) = none := by
      intro i
      by_contra hno
      exact absurd (h.made _ hno) (Nat.not_lt.mpr (Nat.le_add_right _ _))
    exact (h.drawnTo 4 block).openPipe ⟨hfresh 2, Nat.add_lt_add_left (by decide) _⟩
      ⟨hfresh 3, Nat.add_lt_add_left (by decide) _⟩ (Nat.ne_of_gt (Nat.lt_succ_self _)) _ hopen

theorem Backed.sysDup (h : Backed k) (fd : Nat) : (sysDup k t fd).Ensures fun p => Backed p.1 := by
  unfold Files.sysDup
  split
  · exact .ret h
  rename_i f _
  have hk := h.allocFd t f
  generalize Files.allocFd k t f = a at hk ⊢
  obtain ⟨k', p⟩ := a
  cases p with
  | none => exact .ret hk
  | some i => exact .bind (hk.retainFile f) fun _ hs => .ret hs

theorem Backed.sysDup2 (h : Backed k) (oldfd newfd : Nat) :
    (sysDup2 k t oldfd newfd).Ensures fun p => Backed p.1 := by
  unfold Files.sysDup2
  split
  · refine .bind (h.releaseFd _) fun k₁ h₁ => ?_
    dsimp only
    split
    · rename_i f hf
      rw [hf]
      have h₂ (i : Fin maxFds) : Backed (k₁.setFd t i (some f)) := h₁.rest rfl rfl rfl
      exact .bind ((h₂ _).retainFile f) fun _ hs => .ret hs
    · exact .ret (h₁.rest rfl rfl rfl)
  · exact .ret h

theorem Backed.copyFd (h : Backed k) (c : Nat) (i : Fin maxFds) :
    (copyFd t c k i).Ensures Backed := by
  have hk : Backed (k.setFd c i (k.fd (t, i))) := h.rest rfl rfl rfl
  unfold Files.copyFd
  dsimp only
  split
  · exact .ret hk
  · exact hk.retainFile _

theorem Backed.forkTask (h : Backed k) : (forkTask k t).Ensures fun p => Backed p.1 := by
  unfold Files.forkTask
  refine .bind (h.kmalloc _) fun ⟨k₁, p⟩ ⟨h₁, _⟩ => ?_
  cases p with
  | none => exact .ret h₁
  | some _ =>
      refine .bind (h₁.kmalloc _) fun ⟨k₂, p⟩ ⟨h₂, _⟩ => ?_
      cases p with
      | none => exact .ret h₂
      | some c =>
          refine .bind (h₂.kmalloc _) fun ⟨k₃, p⟩ ⟨h₃, _⟩ => ?_
          cases p with
          | none => exact .ret (h₃.rest rfl rfl rfl)
          | some _ =>
              dsimp only
              refine .bind (P := Backed) ?_ fun _ hs => .ret hs
              refine Exec.Ensures.foldlM (fun _ s => Backed s) (fun i _ s hs => hs.copyFd c i) ?_
              exact h₃.rest rfl rfl rfl

theorem Backed.createUserTask (h : Backed k) {stale : Fin maxFds → SockPtr}
    (hnull : ∀ i, stale i = .null) : (createUserTask k stale).Ensures Backed := by
  unfold Files.createUserTask
  refine .bind (h.kmalloc _) fun ⟨k₁, p⟩ ⟨h₁, _⟩ => ?_
  cases p with
  | none => exact .ret h₁
  | some c =>
      refine Exec.Ensures.foldlM (fun _ s => Backed s) (fun i _ s hs => ?_) (h₁.rest rfl rfl rfl)
      unfold openStd
      refine .bind (hs.kmalloc _) fun ⟨k₂, p⟩ ⟨h₂, hf⟩ => ?_
      cases p with
      | none => exact .ret h₂
      | some f =>
          have hb : Held.console.Backs (consoleFile i (stale i)) := by
            rw [hnull i]
            rfl
          have h₃ := h₂.putFile (hf f rfl).1 (hf f rfl).2 hb
          exact .ret (h₃.rest rfl rfl rfl)

theorem Backed.taskExit (h : Backed k) : (taskExit k t).Ensures Backed :=
  Exec.Ensures.foldlM (fun _ s => Backed s) (fun i _ _ hs => hs.releaseFd i) (h.rest rfl rfl rfl)

theorem Backed.fileWrite (h : Backed k) {f : Nat} {x : File} (hx : k.file f = some x)
    (buf : List UInt8) : (fileWrite k f x buf).Ensures fun p => Backed p.1 := by
  unfold Files.fileWrite
  split
  · exact .ret (h.rest rfl rfl rfl)
  · exact .undefined
  · split
    · exact .undefined
    · exact .after fun _ => .ret (h.rest rfl rfl rfl)
  · refine .after fun offset => .bind (VfsKept.vfsWrite h.nodes _ offset buf) fun _ hv => .ret ?_
    exact (h.vfs hv).setFile (x := x) hx rfl rfl
  · exact .ret h

theorem Backed.fileRead (h : Backed k) {f : Nat} {x : File} (hx : k.file f = some x)
    (count : Nat) : (fileRead k f x count).Ensures fun p => Backed p.1 := by
  unfold Files.fileRead
  split
  · exact .ret (h.rest rfl rfl rfl)
  · exact .undefined
  · split
    · exact .undefined
    · exact .after fun _ => .ret (h.rest rfl rfl rfl)
  · exact .after fun _ => .ret (h.setFile hx rfl rfl)
  · exact .ret h

/-- Every event keeps it, if its new files find no socket in memory. -/
theorem Backed.run (h : Backed k) {e : FdEvent} (hnull : NullMemory (.fd e)) :
    (e.run k).Ensures Backed := by
  have hcall {x : Exec (Kernel × Int)} (hx : x.Ensures fun p => Backed p.1) :
      (x >>= fun p => Exec.ret p.1).Ensures Backed := .bind hx fun _ hp => .ret hp
  cases e with
  | openPath t c path flags stale =>
      cases (show stale = .null from hnull)
      exact hcall (h.sysOpen c path flags)
  | pipe t stale stale' =>
      obtain ⟨rfl, rfl⟩ : stale = .null ∧ stale' = .null := hnull
      exact hcall h.sysPipe
  | socket t domain type protocol => exact hcall (h.sysSocket domain type protocol)
  | dup t fd => exact hcall (h.sysDup fd)
  | dup2 t oldfd newfd => exact hcall (h.sysDup2 oldfd newfd)
  | close t fd =>
      refine hcall ?_
      unfold sysClose
      split
      · exact .bind (h.releaseFd _) fun _ hs => .ret hs
      · exact .ret h
  | fork t => exact hcall h.forkTask
  | exit t => exact h.taskExit
  | kill t target =>
      show (sysKill k t target).Ensures _
      unfold sysKill
      split
      · exact h.taskExit
      · exact .ret (h.rest rfl rfl rfl)
  | wait t c =>
      show (wait4 k t c).Ensures _
      unfold wait4
      split
      · exact .ret (h.rest rfl rfl rfl)
      · exact .ret h
  | spawn stale => exact h.createUserTask hnull
  | write t fd buffer =>
      refine hcall ?_
      unfold sysWrite
      split
      · exact .ret h
      refine .after fun console => ?_
      split
      · exact .ret (h.rest rfl rfl rfl)
      split
      · exact .ret h
      · exact .bind (fun _ hx => load_eq_ret.mp hx) fun x hx => h.fileWrite hx _
  | read t fd valid buf count =>
      refine .bind (P := fun p => Backed p.1) ?_ fun _ hp => .ret hp
      unfold sysRead
      split
      · exact .ret h
      refine .after fun console => ?_
      split
      · exact .after fun _ => .ret (h.rest rfl rfl rfl)
      split
      · exact .ret h
      · refine .bind (fun _ hx => load_eq_ret.mp hx) fun x hx => ?_
        exact .bind (h.fileRead hx count) fun _ hs => .ret hs
  | shutdown t fd =>
      show (sysShutdown k t fd).Ensures _
      unfold sysShutdown
      split
      · exact .ret h
      refine .after fun x => ?_
      split
      · exact .ret h
      · exact .undefined
      · exact .ret (h.rest rfl rfl rfl)
  | sockCall t fd e =>
      show (sysSockCall k t fd e).Ensures _
      unfold sysSockCall
      split
      · exact .ret h
      refine .after fun x => ?_
      split
      · exact .ret h
      · exact .undefined
      · refine .ret ?_
        split
        · exact h.rest rfl rfl rfl
        · exact h
  | segment seg => exact .ret (h.rest rfl rfl rfl)
  | path t call =>
      show Exec.Ensures (if onPaths call then _ else _) _
      split
      · exact .bind (VfsKept.call h.nodes call) fun _ hv => .ret (h.vfs hv)
      · exact .ret h

end Calls

theorem Backed.boot {k : Kernel} (h : KernelBoot k) : Backed k := by
  have hbase := Base.boot h
  refine ⟨hbase.nodes, hbase.made, fun f x hx => ?_⟩
  rw [h.file f] at hx
  cases hx

theorem Backed.oneBacking {k : Kernel} (h : Backed k) : OneBacking k := by
  refine ⟨fun t _ i f x _ hx => ?_, fun t _ i f k' hf hk' => ?_⟩
  · obtain ⟨held, hmade, hb⟩ := h.file f x hx
    refine ⟨hb.backings.1, fun hcon => hb.backings.2 ?_⟩
    rw [hmade] at hcon
    exact Option.some.inj hcon
  · cases releaseFd_dropped k' hk' with
    | empty hnone =>
        rw [hf] at hnone
        cases hnone
    | @more g x hg hx _ =>
        rw [hf] at hg
        cases hg
        rw [if_neg]
        · rfl
        · show ¬Function.update k.file f _ f = none
          rw [Function.update_self]
          nofun
    | @last g x k₁ hg hx _ hclosed =>
        rw [hf] at hg
        cases hg
        obtain ⟨held, hheld, hreleased⟩ := hclosed.released
        obtain ⟨held', hmade, hb⟩ := h.file f x hx
        rw [hb.held_eq, Option.some.injEq] at hheld
        rw [if_pos]
        · exact ⟨held, hheld ▸ hmade, hreleased⟩
        · show k₁.file f = none
          rw [hclosed.file, Function.update_self]

/-- In every run in which the memory of new files holds `NULL` where a file
has its socket, every file in a slot has at most one object behind it, and is
given back as what it was made for. -/
theorem backing_while_null {a : AcceptKernel} (h : acceptSystem.ReachVia (fun _ => NullMemory) a) :
    OneBacking a.kernel := by
  refine Backed.oneBacking (System.ReachVia.invariant (I := fun a => Backed a.kernel) ?_ ?_ h)
  · exact fun a ha => .boot ha
  · intro a e a' hi hnull hs
    cases e with
    | fd e => exact hi.run hnull a'.kernel hs.1.2
    | accept t fd =>
        obtain ⟨_, r, hr⟩ := hs
        exact hi.sysAccept a.queue fd _ hr

/-- Events on descriptors in a row are a run. -/
theorem reach_fdEvents {G : AcceptKernel → AcceptEvent → Prop} {k k' : Kernel} {q : AcceptQueues}
    {es : List FdEvent} (h : acceptSystem.ReachVia G ⟨k, q⟩) (hg : ∀ e ∈ es, ∀ a, G a (.fd e))
    (hrun : runAll k es = .ret k') : acceptSystem.ReachVia G ⟨k', q⟩ := by
  induction es generalizing k with
  | nil =>
      cases hrun
      exact h
  | cons e es ih =>
      rw [runAll] at hrun
      split at hrun
      · rename_i hactor
        obtain ⟨k₁, hk₁, hrun⟩ := Exec.bind_eq_ret.mp hrun
        exact ih (.step h (hg e List.mem_cons_self _) ⟨⟨hactor, hk₁⟩, rfl⟩)
          (fun e' he' => hg e' (List.mem_cons_of_mem e he')) hrun
      · cases hrun

/-- A task with a pipe, a socket and a file. -/
theorem backing_of_three_kinds : ∃ a : AcceptKernel,
    acceptSystem.ReachVia (fun _ => NullMemory) a ∧ a.kernel.made 7 = some (.readEnd 5) ∧
      a.kernel.made 9 = some (.sock 0) ∧ a.kernel.made 11 = some (.node 10) ∧
      OneBacking a.kernel := by
  obtain ⟨k, hrun, hend, hsock, hnode⟩ : ∃ k, runAll quietKernel
      [.spawn fun _ => .null, .pipe 1 .null .null, .socket 1 2 1 0,
        .openPath 1 rootCaller (str "/a") 64 .null] = .ret k ∧ k.made 7 = some (.readEnd 5) ∧
      k.made 9 = some (.sock 0) ∧ k.made 11 = some (.node 10) := ⟨_, rfl, rfl, rfl, rfl⟩
  have hreach : acceptSystem.ReachVia (fun _ => NullMemory) ⟨k, fun _ => []⟩ := by
    refine reach_fdEvents (.init quietKernel_boot) ?_ hrun
    simp [NullMemory]
  exact ⟨_, hreach, hend, hsock, hnode, backing_while_null hreach⟩

/-- A task closes a socket, and the file it opens next is made in the same
memory: it has a node and a socket behind it. -/
theorem file_with_two_backings : ¬∀ a, acceptSystem.Reach a → OneBacking a.kernel := by
  intro hall
  obtain ⟨k, hrun, htasks, hslot, hfile⟩ : ∃ k, runAll quietKernel
      [.spawn fun _ => .null, .socket 1 2 1 0, .close 1 3,
        .openPath 1 rootCaller (str "/a") 64 (.slot 0)] = .ret k ∧ k.tasks = [1] ∧
      k.fd (1, 3) = some 7 ∧ (k.file 7).map File.backings = some 2 := ⟨_, rfl, rfl, rfl, rfl⟩
  have hone := hall ⟨k, fun _ => []⟩
    (reach_fdEvents (.init quietKernel_boot) (fun _ _ _ => trivial) hrun)
  obtain ⟨x, hx, htwo⟩ := Option.map_eq_some_iff.mp hfile
  have hle := (hone.one 1 (by rw [htasks]; exact List.mem_cons_self) 3 7 x hslot hx).1
  rw [htwo] at hle
  cases hle with
  | step hle => cases hle

end LiteBSD.Files
