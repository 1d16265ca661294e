/-
# `LiteBSD.Files.FsRun` — the file system under the kernel

Whatever a task calls, all that comes of it for the file system is a row of
calls of its own, and some addresses fewer in supply (`VfsRun`).  So what every
call of the file system keeps holds of the file system of every kernel that is
reached, here of who owns the data, of the list of nodes and of the capacities
(`tracked_of_reach`), as long as no allocation returns `NULL`.

Along the way, a file that has a node has no pipe: the calls that make a file
store into both.
-/
import LiteBSD.Files.Moves
import LiteBSD.Vfs.Isolation
import LiteBSD.Vfs.Writes

namespace LiteBSD.Files

open Lib

/-- What is left of a run when only the file system is looked at. -/
inductive VfsRun (v : Vfs) : Vfs → Prop
  | refl : VfsRun v v
  | call {w u : Vfs} : VfsRun v w → (call : VfsCall) → vfsCall w call = .ret u → VfsRun v u
  | draw {w u : Vfs} : VfsRun v w → Untouched w u → VfsRun v u

/-- The file `x` has a node or a pipe, not both. -/
def File.oneKind (x : File) : Prop := x.node = none ∨ x.pipe = none

/-- The file system has come from `v`. -/
structure Tracked (v : Vfs) (k : Kernel) : Prop where
  run : VfsRun v k.vfs
  kinds : ∀ f x, k.file f = some x → x.oneKind

/-- Allocations give a block or stop the machine. -/
def plentySystem : System Kernel FdEvent where
  init := fun k => KernelBoot k ∧ ∀ i, k.vfs.mem.outcome i ≠ .null
  step := fdSystem.step

section Run

variable {v : Vfs} {k k' : Kernel} {t f : Nat} {x : File}

theorem VfsRun.trans {w u : Vfs} (h : VfsRun v w) (h' : VfsRun w u) : VfsRun v u := by
  induction h' with
  | refl => exact h
  | call _ call hs ih => exact ih.call call hs
  | draw _ hu ih => exact ih.draw hu

theorem VfsRun.vfsOpen {w : Vfs} (h : VfsRun v w) (c : Caller) (path : CStr) (flags : Nat) :
    (vfsOpen w c path flags).Ensures fun p => VfsRun v p.1 := by
  rintro ⟨u, p⟩ hu
  exact h.call (.openPath c path flags) (by rw [vfsCall, hu]; rfl)

theorem VfsRun.vfsClose {w : Vfs} (h : VfsRun v w) (n : Nat) : (vfsClose w n).Ensures fun p => VfsRun v p.1 := by
  rintro ⟨u, p⟩ hu
  exact h.call (.close n) (by rw [vfsCall, hu]; rfl)

theorem VfsRun.vfsWrite {w : Vfs} (h : VfsRun v w) (n offset : Nat) (buf : List UInt8) :
    (vfsWrite w n offset buf).Ensures fun p => VfsRun v p.1 := by
  rintro ⟨u, r⟩ hu
  exact h.call (.write n offset buf) (by rw [vfsCall, hu]; rfl)

theorem VfsRun.truncOnOpen {w : Vfs} (h : VfsRun v w) (n flags : Nat) :
    (truncOnOpen w n flags).Ensures fun u => VfsRun v u := by
  unfold Files.truncOnOpen
  split
  · refine .bind (P := fun p => VfsRun v p.1) ?_ fun _ hp => .ret hp
    rintro ⟨u, p⟩ hu
    exact h.call (.truncate n 0) (by rw [vfsCall, hu]; rfl)
  · exact .ret h

theorem Tracked.rest (h : Tracked v k) (hvfs : k'.vfs = k.vfs) (hfile : k'.file = k.file) : Tracked v k' :=
  ⟨hvfs ▸ h.run, hfile ▸ h.kinds⟩

theorem Tracked.vfs (h : Tracked v k) {w : Vfs} (hw : VfsRun v w) : Tracked v { k with vfs := w } := ⟨hw, h.kinds⟩

theorem Tracked.setFile (h : Tracked v k) (f : Nat) (hx : x.oneKind) : Tracked v (k.setFile f x) := by
  refine ⟨h.run, fun g y hg => ?_⟩
  rcases file_update hg with ⟨-, hy⟩ | ⟨-, hg⟩
  · cases hy
    exact hx
  · exact h.kinds g y hg

theorem Tracked.putFile (h : Tracked v k) (f : Nat) (held : Held) (hx : x.oneKind) : Tracked v (k.putFile f held x) :=
  (h.setFile f hx).rest rfl rfl

theorem Tracked.freed (h : Tracked v k) (hvfs : k'.vfs = k.vfs) (hfile : k'.file = Function.update k.file f none) :
    Tracked v k' := by
  refine ⟨hvfs ▸ h.run, fun g y hg => ?_⟩
  rw [hfile] at hg
  rcases file_update hg with ⟨-, hnone⟩ | ⟨-, hg⟩
  · cases hnone
  · exact h.kinds g y hg

theorem Tracked.kmalloc (h : Tracked v k) (size : Nat) : (k.kmalloc size).Ensures fun p => Tracked v p.1 := by
  refine (kmalloc_ensures k size).mono fun ⟨k', p⟩ ⟨w, hk, hu, _⟩ => ?_
  obtain rfl : k' = _ := hk
  exact h.vfs (h.run.draw hu)

theorem Tracked.allocFd (h : Tracked v k) (t f : Nat) : Tracked v (allocFd k t f).1 := by
  unfold Files.allocFd
  split
  · exact h
  · exact h.rest rfl rfl

theorem Tracked.retainFile (h : Tracked v k) (f : Nat) : (retainFile k f).Ensures (Tracked v) := by
  refine .bind (P := fun x => k.file f = some x) (fun x hx => load_eq_ret.mp hx) fun x hx => .ret ?_
  exact h.setFile f (h.kinds f x hx)

theorem Tracked.closeFile (h : Tracked v k) (f : Nat) (x : File) : (closeFile k f x).Ensures (Tracked v) := by
  unfold Files.closeFile
  split
  · split
    · exact .undefined
    · exact .ret (h.freed rfl rfl)
  · exact .ret (h.freed rfl rfl)
  · exact .undefined
  · exact .bind (h.run.vfsClose _) fun _ hv => .ret ((h.vfs hv).freed rfl rfl)
  · exact .ret (h.freed rfl rfl)

theorem Tracked.releaseFd (h : Tracked v k) (t : Nat) (i : Fin maxFds) : (releaseFd k t i).Ensures (Tracked v) := by
  unfold Files.releaseFd
  split
  · exact .ret h
  refine .bind (P := fun x => k.file _ = some x) (fun x hx => load_eq_ret.mp hx) fun x hx => ?_
  refine .bind (P := Tracked v) ?_ fun k' hk => .ret (hk.rest rfl rfl)
  unfold dropFile
  split
  · exact h.closeFile _ _
  · exact .ret (h.setFile _ (h.kinds _ x hx))

/-! ## The calls -/

theorem Tracked.openNode (h : Tracked v k) (t n flags : Nat) (stale : SockPtr) :
    (openNode k t n flags stale).Ensures fun p => Tracked v p.1 := by
  unfold Files.openNode
  refine .bind (h.kmalloc _) fun ⟨k₁, p⟩ h₁ => ?_
  cases p with
  | none => exact .bind (h₁.run.vfsClose n) fun _ hv => .ret (h₁.vfs hv)
  | some f =>
      refine .after fun offset => ?_
      dsimp only
      have hput := h₁.putFile (x := ⟨some n, offset, flags, 1, none, 0, stale⟩) f (.node n) (.inr rfl)
      have halloc := hput.allocFd t f
      split
      · rename_i heq
        rw [heq] at halloc
        exact .ret halloc
      · rename_i heq
        rw [heq] at halloc
        exact .bind (halloc.run.vfsClose n) fun _ hv => .ret ((halloc.vfs hv).freed rfl rfl)

theorem Tracked.sysOpen (h : Tracked v k) (t : Nat) (c : Caller) (path : CStr) (flags : Nat) (stale : SockPtr) :
    (sysOpen k t c path flags stale).Ensures fun p => Tracked v p.1 := by
  unfold Files.sysOpen
  refine .after fun refused => ?_
  split
  · exact .ret h
  refine .bind (h.run.vfsOpen c path flags) fun ⟨w, p⟩ hw => ?_
  cases p with
  | none => exact .ret (h.vfs hw)
  | some n => exact .bind (hw.truncOnOpen n flags) fun u hu => (h.vfs hu).openNode t n flags stale

theorem Tracked.openPipe (h : Tracked v k) (t p r w : Nat) (stale stale' : SockPtr) :
    (openPipe k t p r w stale stale').Ensures fun q => Tracked v q.1 := by
  unfold Files.openPipe
  dsimp only
  generalize hk₁ : Kernel.putFile (Kernel.putFile { k with pipe := _ } r _ _) w _ _ = k₁
  have h₁ : Tracked v k₁ := by
    rw [← hk₁]
    have h₀ (pipe : Nat → Option Pipe) : Tracked v { k with pipe := pipe } := h.rest rfl rfl
    exact ((h₀ _).putFile (x := pipeFile p 0 stale) r _ (.inl rfl)).putFile (x := pipeFile p 1 stale') w _ (.inl rfl)
  have h₅ := (h₁.allocFd t r).allocFd t w
  split
  · exact .ret h₅
  · exact .bind (h₅.releaseFd t _) fun _ hk => .ret hk
  · exact .bind (h₅.releaseFd t _) fun _ hk => .ret hk
  · exact .ret h₅

theorem Tracked.drawnTo (h : Tracked v k) (n : Nat) (block : Nat → Option Nat) : Tracked v (drawnTo k n block) :=
  (h.vfs (h.run.draw (untouched_drawnTo k n block))).rest rfl rfl

theorem Tracked.sysPipe (h : Tracked v k) (t : Nat) (stale stale' : SockPtr) :
    (sysPipe k t stale stale').Ensures fun p => Tracked v p.1 := by
  rintro ⟨k', ret⟩ hrun
  obtain ⟨block, -, ⟨-, -, n, rfl⟩ | ⟨-, hopen⟩⟩ := sysPipe_blocks hrun
  · exact h.drawnTo n block
  · exact (h.drawnTo 4 block).openPipe t _ _ _ stale stale' _ hopen

theorem Tracked.sysSocket (h : Tracked v k) (t domain type protocol : Nat) :
    (sysSocket k t domain type protocol).Ensures fun p => Tracked v p.1 := by
  unfold Files.sysSocket
  generalize sockCreate k.net domain type protocol = c
  obtain ⟨net, s⟩ := c
  have h₀ : Tracked v { k with net := net } := h.rest rfl rfl
  cases s with
  | none => exact .ret h₀
  | some s =>
      refine .bind (h₀.kmalloc _) fun ⟨k₁, p⟩ h₁ => ?_
      cases p with
      | none => exact .ret (h₁.rest rfl rfl)
      | some f =>
          dsimp only
          have hput := h₁.putFile (x := ⟨none, 0, 0, 1, none, 0, .slot s⟩) f (.sock s) (.inl rfl)
          have halloc := hput.allocFd t f
          split
          · rename_i heq
            rw [heq] at halloc
            exact .ret halloc
          · rename_i heq
            rw [heq] at halloc
            exact .ret (halloc.freed rfl rfl)

theorem Tracked.sysDup (h : Tracked v k) (t fd : Nat) : (sysDup k t fd).Ensures fun p => Tracked v p.1 := by
  unfold Files.sysDup
  split
  · exact .ret h
  · rename_i f _
    have halloc := h.allocFd t f
    split
    · rename_i heq
      rw [heq] at halloc
      exact .ret halloc
    · rename_i heq
      rw [heq] at halloc
      exact .bind (halloc.retainFile f) fun _ hk => .ret hk

theorem Tracked.sysDup2 (h : Tracked v k) (t oldfd newfd : Nat) :
    (sysDup2 k t oldfd newfd).Ensures fun p => Tracked v p.1 := by
  unfold Files.sysDup2
  split
  · refine .bind (h.releaseFd t _) fun k₁ h₁ => ?_
    dsimp only
    split
    · exact .bind (Tracked.retainFile (k := k₁.setFd t _ _) (h₁.rest rfl rfl) _) fun _ hk => .ret hk
    · exact .ret (h₁.rest rfl rfl)
  · exact .ret h

theorem Tracked.sysClose (h : Tracked v k) (t fd : Nat) : (sysClose k t fd).Ensures fun p => Tracked v p.1 := by
  unfold Files.sysClose
  split
  · exact .bind (h.releaseFd t _) fun _ hk => .ret hk
  · exact .ret h

theorem Tracked.fileWrite (h : Tracked v k) (f : Nat) (hx : x.oneKind) (buf : List UInt8) :
    (fileWrite k f x buf).Ensures fun p => Tracked v p.1 := by
  unfold Files.fileWrite
  split
  · exact .ret (h.rest rfl rfl)
  · exact .undefined
  · split
    · exact .undefined
    · exact .after fun _ => .ret (h.rest rfl rfl)
  · refine .after fun offset => .bind (h.run.vfsWrite _ offset buf) fun _ hv => .ret ?_
    exact (h.vfs hv).setFile f hx
  · exact .ret h

theorem Tracked.fileRead (h : Tracked v k) (f : Nat) (hx : x.oneKind) (count : Nat) :
    (fileRead k f x count).Ensures fun p => Tracked v p.1 := by
  unfold Files.fileRead
  split
  · exact .ret (h.rest rfl rfl)
  · exact .undefined
  · split
    · exact .undefined
    · exact .after fun _ => .ret (h.rest rfl rfl)
  · exact .after fun _ => .ret (h.setFile f hx)
  · exact .ret h

theorem Tracked.sysWrite (h : Tracked v k) (t fd : Nat) (buffer : Option (List UInt8)) :
    (sysWrite k t fd buffer).Ensures fun p => Tracked v p.1 := by
  unfold Files.sysWrite
  split
  · exact .ret h
  refine .after fun console => ?_
  split
  · exact .ret (h.rest rfl rfl)
  split
  · exact .ret h
  · refine .bind (P := fun x => k.file _ = some x) (fun x hx => load_eq_ret.mp hx) fun x hx => ?_
    exact h.fileWrite _ (h.kinds _ x hx) _

theorem Tracked.sysRead (h : Tracked v k) (t fd : Nat) (valid : Bool) (buf : Nat → UInt8) (count : Nat) :
    (sysRead k t fd valid buf count).Ensures fun p => Tracked v p.1 := by
  unfold Files.sysRead
  split
  · exact .ret h
  refine .after fun console => ?_
  split
  · exact .after fun _ => .ret (h.rest rfl rfl)
  split
  · exact .ret h
  · refine .bind (P := fun x => k.file _ = some x) (fun x hx => load_eq_ret.mp hx) fun x hx => ?_
    exact .bind (h.fileRead _ (h.kinds _ x hx) count) fun _ hk => .ret hk

theorem Tracked.forkTask (h : Tracked v k) (t : Nat) : (forkTask k t).Ensures fun p => Tracked v p.1 := by
  unfold Files.forkTask
  refine .bind (h.kmalloc _) fun ⟨k₁, stack⟩ h₁ => ?_
  cases stack with
  | none => exact .ret h₁
  | some stack =>
      refine .bind (h₁.kmalloc _) fun ⟨k₂, child⟩ h₂ => ?_
      cases child with
      | none => exact .ret h₂
      | some child =>
          refine .bind (h₂.kmalloc _) fun ⟨k₃, ustack⟩ h₃ => ?_
          cases ustack with
          | none => exact .ret (h₃.rest rfl rfl)
          | some ustack =>
              have h₄ : Tracked v (addOwner k₃ child ⟨k₃.nextPid, (k₃.owner t).pid, false⟩) := h₃.rest rfl rfl
              refine .bind (Exec.Ensures.foldlM (fun _ => Tracked v) (fun i rest s hs => ?_) h₄) fun s hs => .ret hs
              unfold copyFd
              have hset : Tracked v (s.setFd child i (s.fd (t, i))) := hs.rest rfl rfl
              split
              · exact .ret hset
              · exact hset.retainFile _

theorem Tracked.taskExit (h : Tracked v k) (t : Nat) : (taskExit k t).Ensures (Tracked v) :=
  Exec.Ensures.foldlM (fun _ => Tracked v) (fun i _ _ hs => hs.releaseFd t i) (h.rest rfl rfl)

theorem Tracked.createUserTask (h : Tracked v k) (stale : Fin maxFds → SockPtr) :
    (createUserTask k stale).Ensures (Tracked v) := by
  unfold Files.createUserTask
  refine .bind (h.kmalloc _) fun ⟨k₁, task⟩ h₁ => ?_
  cases task with
  | none => exact .ret h₁
  | some a =>
      refine Exec.Ensures.foldlM (fun _ => Tracked v) (fun i rest s hs => ?_) (h₁.rest rfl rfl)
      unfold openStd
      refine .bind (hs.kmalloc _) fun ⟨s₁, p⟩ hs₁ => ?_
      cases p with
      | none => exact .ret hs₁
      | some f => exact .ret ((hs₁.putFile (x := consoleFile i (stale i)) f .console (.inl rfl)).rest rfl rfl)

/-- Every event. -/
theorem Tracked.event (h : Tracked v k) (e : FdEvent) : (e.run k).Ensures (Tracked v) := by
  -- for a call whose result is dropped
  have hcall {y : Exec (Kernel × Int)} (hy : y.Ensures fun p => Tracked v p.1) :
      (y >>= fun p => Exec.ret p.1).Ensures (Tracked v) := .bind hy fun _ hp => .ret hp
  cases e with
  | openPath t c path flags stale => exact hcall (h.sysOpen t c path flags stale)
  | pipe t stale stale' => exact hcall (h.sysPipe t stale stale')
  | socket t domain type protocol => exact hcall (h.sysSocket t domain type protocol)
  | dup t fd => exact hcall (h.sysDup t fd)
  | dup2 t oldfd newfd => exact hcall (h.sysDup2 t oldfd newfd)
  | close t fd => exact hcall (h.sysClose t fd)
  | fork t => exact hcall (h.forkTask t)
  | exit t => exact h.taskExit t
  | kill t target =>
      show (sysKill k t target).Ensures _
      unfold sysKill
      split
      · exact h.taskExit t
      · exact .ret (h.rest rfl rfl)
  | wait t c =>
      show (wait4 k t c).Ensures _
      unfold wait4
      split
      · exact .ret (h.rest rfl rfl)
      · exact .ret h
  | spawn stale => exact h.createUserTask stale
  | write t fd buffer => exact hcall (h.sysWrite t fd buffer)
  | read t fd valid buf count => exact .bind (h.sysRead t fd valid buf count) fun _ hp => .ret hp
  | shutdown t fd =>
      show (sysShutdown k t fd).Ensures _
      unfold sysShutdown
      split
      · exact .ret h
      refine .after fun x => ?_
      split
      · exact .ret h
      · exact .undefined
      · exact .ret (h.rest rfl rfl)
  | sockCall t fd e =>
      show (sysSockCall k t fd e).Ensures _
      unfold sysSockCall
      split
      · exact .ret h
      refine .after fun x => ?_
      split
      · exact .ret h
      · exact .undefined
      · refine .ret ?_
        split
        · exact h.rest rfl rfl
        · exact h
  | segment seg => exact .ret (h.rest rfl rfl)
  | path t call =>
      show Exec.Ensures (if onPaths call then _ else _) _
      split
      · exact .bind (P := fun w => VfsRun v w) (fun w hw => h.run.call call hw) fun _ hv => .ret (h.vfs hv)
      · exact .ret h

end Run

section Kept

variable {v w : Vfs} {k : Kernel}

theorem fsInv_of_untouched (h : FsInv v) (hu : Untouched v w) : FsInv w where
  blobs := h.blobs.of_relabel hu.nodes (fun _ => by rw [hu.node]) hu.buf hu.cell hu.mem hu.supply
  table := .of_untouched h.table hu
  roomy := fun a n hn => h.roomy a n (hu.node ▸ hn)

theorem VfsRun.fsInv (hr : VfsRun v w) (h : FsInv v) : FsInv w := by
  induction hr with
  | refl => exact h
  | call _ call hs ih => exact ⟨(blob_step ih.blobs ih.table hs).inv, ih.table.step hs, ih.roomy.step ih.table hs⟩
  | draw _ hu ih => exact fsInv_of_untouched ih hu

/-- What holds of every kernel that is reached. -/
theorem tracked_of_reach (h : plentySystem.Reach k) : FsInv k.vfs ∧ ∀ f x, k.file f = some x → x.oneKind := by
  refine System.ReachVia.invariant (I := fun k => FsInv k.vfs ∧ ∀ f x, k.file f = some x → x.oneKind) ?_ ?_ h
  · rintro k ⟨hb, hmem⟩
    have hboot : VfsBoot k.vfs := ⟨_, _, hb.vfs⟩
    refine ⟨⟨.of_boot ⟨hboot, hmem⟩, .of_boot hboot, .of_reach (.init hboot)⟩, fun f x hx => ?_⟩
    rw [hb.file f] at hx
    cases hx
  · rintro k e k' ⟨hk, hkinds⟩ _ ⟨-, hs⟩
    have htracked := Tracked.event (v := k.vfs) ⟨.refl, hkinds⟩ e k' hs
    exact ⟨htracked.run.fsInv hk, htracked.kinds⟩

end Kept

end LiteBSD.Files
