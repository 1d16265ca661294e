/-
# `LiteBSD.Files.Slots` — who owns a socket

A slot of the socket table is in use while its `ref_count` is not 0, and the
count is 1 from `sock_create` to the first `sock_close`, however many
descriptors there are.  The owner is the ONE file that was made with the
slot.  This is kept by every call but two: `shutdown` gives the slot back and
leaves the file with it, and a file that is made in memory whose `sock` is
not `NULL` refers to a slot it was never given.  In every run without these,
no two files share a slot and no slot of an open file is free
(`sockets_owned_while_kept`).
-/
import LiteBSD.Files.System

namespace LiteBSD.Files

open Lib

/-- No two files have the same socket, and the socket of an open descriptor
is not free. -/
def SocketsOwned (k : Kernel) : Prop :=
  (∀ f g x y, k.file f = some x → k.file g = some y → x.sock ≠ .null → x.sock = y.sock → f = g) ∧
    ∀ t ∈ k.tasks, ∀ j f x i, k.fd (t, j) = some f → k.file f = some x → x.sock = .slot i →
      0 < (k.net.slot i).refCount

/-- No socket is shut down, and memory for a new file holds `NULL` where the
file has its socket. -/
def SocketsKept (k : Kernel) : FdEvent → Prop
  | .shutdown t fd => ∀ f x, k.fdAt t fd = some f → k.file f = some x → x.sock = .null
  | .openPath _ _ _ _ stale => stale = .null
  | .pipe _ stale stale' => stale = .null ∧ stale' = .null
  | .spawn stale => ∀ i, stale i = .null
  | _ => True

/-- Every socket of a file is in use, by that file alone. -/
structure SlotInv (k : Kernel) : Prop where
  live : ∀ f x i, k.file f = some x → x.sock = .slot i → 0 < (k.net.slot i).refCount
  own : ∀ f g x y, k.file f = some x → k.file g = some y → x.sock ≠ .null → x.sock = y.sock → f = g

/-- Files have got no new sockets, and no slot is more or less in use. -/
structure Quiet (k k' : Kernel) : Prop where
  file : ∀ f y, k'.file f = some y → y.sock ≠ .null → ∃ x, k.file f = some x ∧ x.sock = y.sock
  refs : ∀ i, (k'.net.slot i).refCount = (k.net.slot i).refCount

section Quiet

variable {k k' k'' : Kernel} {f t : Nat} {x : File}

theorem Quiet.of_same (hfile : k'.file = k.file) (hnet : k'.net = k.net) : Quiet k k' :=
  ⟨fun f y hy _ => ⟨y, by rw [← hfile, hy], rfl⟩, fun i => by rw [hnet]⟩

theorem Quiet.trans (h : Quiet k k') (h' : Quiet k' k'') : Quiet k k'' := by
  refine ⟨fun f z hz hnull => ?_, fun i => (h'.refs i).trans (h.refs i)⟩
  obtain ⟨y, hy, heq⟩ := h'.file f z hz hnull
  obtain ⟨x, hx, heq'⟩ := h.file f y hy (heq ▸ hnull)
  exact ⟨x, hx, heq'.trans heq⟩

/-- A store into a file that keeps its socket, or has none. -/
theorem Quiet.setFile {y : File} (h : y.sock = .null ∨ ∃ x, k.file f = some x ∧ x.sock = y.sock) :
    Quiet k (k.setFile f y) := by
  refine ⟨fun g z hz hnull => ?_, fun _ => rfl⟩
  by_cases hg : g = f
  · subst hg
    rw [setFile_file, Function.update_self, Option.some.injEq] at hz
    rcases h with h | h
    · rw [hz] at h
      exact absurd h hnull
    · rwa [hz] at h
  · rw [setFile_file, Function.update_of_ne hg] at hz
    exact ⟨z, hz, rfl⟩

theorem Quiet.freeFile (held : Held) : Quiet k (k.freeFile f held) := by
  refine ⟨fun g z hz _ => ?_, fun _ => rfl⟩
  by_cases hg : g = f
  · rw [hg, freeFile_file, Function.update_self] at hz
    cases hz
  · rw [freeFile_file, Function.update_of_ne hg] at hz
    exact ⟨z, hz, rfl⟩

theorem Quiet.kmalloc (k : Kernel) (size : Nat) :
    (k.kmalloc size).Ensures fun p => Quiet k p.1 := by
  refine (kmalloc_ensures k size).mono fun p hp => ?_
  obtain ⟨v, hv, _⟩ := hp
  rw [hv]
  exact .of_same rfl rfl

theorem SlotInv.of_quiet (h : SlotInv k) (hq : Quiet k k') : SlotInv k' := by
  refine ⟨fun f y i hy hsock => ?_, fun f g y z hy hz hnull hsock => ?_⟩
  · obtain ⟨x, hx, heq⟩ := hq.file f y hy (by rw [hsock]; nofun)
    rw [hq.refs]
    exact h.live f x i hx (heq.trans hsock)
  · obtain ⟨x, hx, heq⟩ := hq.file f y hy hnull
    obtain ⟨x', hx', heq'⟩ := hq.file g z hz (hsock ▸ hnull)
    exact h.own f g x x' hx hx' (heq ▸ hnull) (heq.trans (hsock.trans heq'.symm))

/-- Quiet all the way. -/
theorem Quiet.ensures {α : Type} {x : Exec α} {f : α → Kernel} (h : SlotInv k)
    (hx : x.Ensures fun a => Quiet k (f a)) : x.Ensures fun a => SlotInv (f a) :=
  hx.mono fun _ hq => h.of_quiet hq

end Quiet

/-! ## Calls that leave the sockets alone -/

section Calls

variable {k : Kernel} {t : Nat}

theorem quiet_allocFd (f : Nat) : Quiet k (allocFd k t f).1 := by
  unfold allocFd
  split <;> exact .of_same rfl rfl

theorem quiet_retainFile (f : Nat) : (retainFile k f).Ensures (Quiet k) := by
  intro k' h
  rw [retainFile, Exec.bind_eq_ret] at h
  obtain ⟨x, hx, h⟩ := h
  cases h
  exact .setFile (.inr ⟨x, load_eq_ret.mp hx, rfl⟩)

theorem quiet_sysDup (fd : Nat) : (sysDup k t fd).Ensures fun p => Quiet k p.1 := by
  unfold sysDup
  split
  · exact .ret (.of_same rfl rfl)
  · rename_i f _
    have halloc := quiet_allocFd (k := k) (t := t) f
    split
    · rename_i heq
      rw [heq] at halloc
      exact .ret halloc
    · rename_i heq
      rw [heq] at halloc
      exact .bind (quiet_retainFile f) fun _ hq => .ret (halloc.trans hq)

theorem quiet_openNode {n flags : Nat} :
    (openNode k t n flags .null).Ensures fun p => Quiet k p.1 := by
  unfold openNode
  refine .bind (Quiet.kmalloc k fileSize) fun ⟨k₁, p⟩ hq => ?_
  have hvfs (k' : Kernel) (v : Vfs) (h : Quiet k k') : Quiet k { k' with vfs := v } :=
    h.trans (.of_same rfl rfl)
  cases p with
  | none => exact .after fun _ => .ret (hvfs _ _ hq)
  | some f =>
      refine .after fun offset => ?_
      dsimp only
      generalize hx : (⟨some n, offset, flags, 1, none, 0, .null⟩ : File) = x
      have hput : Quiet k (k₁.putFile f (.node n) x) :=
        hq.trans ((Quiet.setFile (.inl (by rw [← hx]))).trans (.of_same rfl rfl))
      have halloc := quiet_allocFd (k := k₁.putFile f (.node n) x) (t := t) f
      split
      · rename_i heq
        rw [heq] at halloc
        exact .ret (hput.trans halloc)
      · rename_i heq
        rw [heq] at halloc
        exact .after fun _ => .ret ((hvfs _ _ (hput.trans halloc)).trans (.freeFile _))

theorem quiet_sysOpen {c : Caller} {path : CStr} {flags : Nat} :
    (sysOpen k t c path flags .null).Ensures fun p => Quiet k p.1 := by
  unfold sysOpen
  refine .after fun refused => ?_
  split
  · exact .ret (.of_same rfl rfl)
  refine .after fun ⟨v, p⟩ => ?_
  cases p with
  | none => exact .ret (.of_same rfl rfl)
  | some n =>
      refine .after fun w => ?_
      refine quiet_openNode.mono fun p hq => ?_
      refine Quiet.trans ?_ hq
      exact .of_same rfl rfl

theorem quiet_addOwner (c : Nat) (o : Owner) : Quiet k (addOwner k c o) := .of_same rfl rfl

theorem quiet_copyFd (c : Nat) (i : Fin maxFds) : (copyFd t c k i).Ensures (Quiet k) := by
  unfold copyFd
  dsimp only
  split
  · exact .ret (.of_same rfl rfl)
  · refine (quiet_retainFile _).mono fun k' hq => ?_
    refine Quiet.trans ?_ hq
    exact .of_same rfl rfl

theorem quiet_forkTask : (forkTask k t).Ensures fun p => Quiet k p.1 := by
  unfold forkTask
  refine .bind (Quiet.kmalloc k _) fun ⟨k₁, p⟩ h₁ => ?_
  cases p with
  | none => exact .ret h₁
  | some _ =>
      refine .bind (Quiet.kmalloc k₁ _) fun ⟨k₂, p⟩ h₂ => ?_
      replace h₂ := h₁.trans h₂
      cases p with
      | none => exact .ret h₂
      | some c =>
          refine .bind (Quiet.kmalloc k₂ _) fun ⟨k₃, p⟩ h₃ => ?_
          replace h₃ := h₂.trans h₃
          cases p with
          | none => exact .ret (h₃.trans (.of_same rfl rfl))
          | some _ =>
              dsimp only
              refine .bind (P := Quiet k) ?_ fun _ hq => .ret hq
              refine Exec.Ensures.foldlM (fun _ k' => Quiet k k') (fun i _ k' hk' => ?_)
                (h₃.trans (quiet_addOwner _ _))
              exact (quiet_copyFd c i).mono fun _ hq => hk'.trans hq

theorem quiet_openStd {stale : Fin maxFds → SockPtr} (i : Fin maxFds) (h : stale i = .null) :
    (openStd t stale k i).Ensures (Quiet k) := by
  unfold openStd
  refine .bind (Quiet.kmalloc k _) fun ⟨k₁, p⟩ h₁ => ?_
  cases p with
  | none => exact .ret h₁
  | some f =>
      refine .ret (h₁.trans ((Quiet.setFile (f := f) (y := consoleFile i (stale i)) ?_).trans ?_))
      · exact .inl h
      · exact .of_same rfl rfl

theorem quiet_createUserTask {stale : Fin maxFds → SockPtr} (h : ∀ i, stale i = .null) :
    (createUserTask k stale).Ensures (Quiet k) := by
  unfold createUserTask
  refine .bind (Quiet.kmalloc k _) fun ⟨k₁, p⟩ h₁ => ?_
  cases p with
  | none => exact .ret h₁
  | some c =>
      refine Exec.Ensures.foldlM (fun _ k' => Quiet k k') (fun i _ k' hk' => ?_)
        (h₁.trans (quiet_addOwner _ _))
      exact (quiet_openStd i (h i)).mono fun _ hq => hk'.trans hq

theorem Confined.refs {i : Fin maxSockets} {n n' : Net} (h : Confined i n n') (j : Fin maxSockets) :
    (n'.slot j).refCount = (n.slot j).refCount := by
  by_cases hj : j = i
  · rw [hj]
    exact h.staysClosed.refCount
  · obtain ⟨s, hs, _⟩ := h
    rw [hs, Function.update_of_ne hj]

theorem Quiet.of_net {n : Net} (h : ∀ j, (n.slot j).refCount = (k.net.slot j).refCount) :
    Quiet k { k with net := n } :=
  ⟨fun _ y hy _ => ⟨y, hy, rfl⟩, h⟩

theorem quiet_fileWrite {f : Nat} {x : File} {buf : List UInt8} (hx : k.file f = some x) :
    (fileWrite k f x buf).Ensures fun p => Quiet k p.1 := by
  unfold fileWrite
  split
  · exact .ret (.of_net fun j => Confined.refs (confined_sockSendto k.net buf 0 0) j)
  · exact .undefined
  · split
    · exact .undefined
    · exact .after fun _ => .ret (.of_same rfl rfl)
  · refine .after fun offset => .after fun ⟨v, written⟩ => .ret ?_
    have hquiet : Quiet k { k with vfs := v } := .of_same rfl rfl
    exact hquiet.trans (.setFile (.inr ⟨x, hx, rfl⟩))
  · exact .ret (.of_same rfl rfl)

theorem quiet_fileRead {f : Nat} {x : File} {count : Nat} (hx : k.file f = some x) :
    (fileRead k f x count).Ensures fun p => Quiet k p.1 := by
  unfold fileRead
  split
  · exact .ret (.of_net fun j => Confined.refs (confined_sockRecvfrom k.net count) j)
  · exact .undefined
  · split
    · exact .undefined
    · exact .after fun _ => .ret (.of_same rfl rfl)
  · exact .after fun ⟨bytes, r⟩ => .ret (.setFile (.inr ⟨x, hx, rfl⟩))
  · exact .ret (.of_same rfl rfl)

theorem quiet_sysWrite (fd : Nat) (buffer : Option (List UInt8)) :
    (sysWrite k t fd buffer).Ensures fun p => Quiet k p.1 := by
  unfold sysWrite
  split
  · exact .ret (.of_same rfl rfl)
  refine .after fun console => ?_
  split
  · exact .ret (.of_same rfl rfl)
  split
  · exact .ret (.of_same rfl rfl)
  · exact .bind (fun _ hx => load_eq_ret.mp hx) fun x hx => quiet_fileWrite hx

theorem quiet_sysRead (fd : Nat) (valid : Bool) (buf : Nat → UInt8) (count : Nat) :
    (sysRead k t fd valid buf count).Ensures fun p => Quiet k p.1 := by
  unfold sysRead
  split
  · exact .ret (.of_same rfl rfl)
  refine .after fun console => ?_
  split
  · exact .after fun _ => .ret (.of_same rfl rfl)
  split
  · exact .ret (.of_same rfl rfl)
  · refine .bind (fun _ hx => load_eq_ret.mp hx) fun x hx => ?_
    exact .bind (quiet_fileRead hx) fun _ hq => .ret hq

theorem quiet_sysSockCall (fd : Nat) (e : CloseEvent) :
    (sysSockCall k t fd e).Ensures (Quiet k) := by
  unfold sysSockCall
  split
  · exact .ret (.of_same rfl rfl)
  refine .after fun x => ?_
  split
  · exact .ret (.of_same rfl rfl)
  · exact .undefined
  · refine .ret ?_
    split
    · rename_i hcall
      exact .of_net fun j => Confined.refs (confined_run hcall) j
    · exact .of_same rfl rfl

end Calls

/-! ## Calls that give a socket back or take one -/

section Sockets

variable {k : Kernel} {t : Nat}

theorem sockClose_refs (n : Net) {i j : Fin maxSockets} (hj : j ≠ i) :
    (((sockClose n i).1).slot j).refCount = (n.slot j).refCount := by
  unfold sockClose
  dsimp only
  split
  · rw [Net.slot_setSlot, Function.update_of_ne hj, slot_tcpSendPacket]
  · rw [Net.slot_setSlot, Function.update_of_ne hj]

theorem sockDestroy_refs (n : Net) {i j : Fin maxSockets} (hj : j ≠ i) :
    ((sockDestroy n i).slot j).refCount = (n.slot j).refCount := by
  rw [sockDestroy, Net.slot_setSlot, Function.update_of_ne hj]

/-- The socket of a file is given back with the file. -/
theorem SlotInv.release (h : SlotInv k) {f : Nat} {x : File} {i : Fin maxSockets} {n : Net}
    (held : Held) (hx : k.file f = some x) (hsock : x.sock = .slot i)
    (hn : ∀ j, j ≠ i → (n.slot j).refCount = (k.net.slot j).refCount) :
    SlotInv ({ k with net := n }.freeFile f held) := by
  have hfile {g : Nat} {y : File} (hy : ({ k with net := n }.freeFile f held).file g = some y) :
      g ≠ f ∧ k.file g = some y := by
    rw [freeFile_file] at hy
    by_cases hg : g = f
    · rw [hg, Function.update_self] at hy
      cases hy
    · rw [Function.update_of_ne hg] at hy
      exact ⟨hg, hy⟩
  refine ⟨fun g y j hy hj => ?_, fun g g' y y' hy hy' hnull heq => ?_⟩
  · obtain ⟨hg, hy⟩ := hfile hy
    show 0 < (n.slot j).refCount
    rw [hn j]
    · exact h.live g y j hy hj
    · rintro rfl
      exact hg (h.own g f y x hy hx (by rw [hj]; nofun) (hj.trans hsock.symm))
  · exact h.own g g' y y' (hfile hy).2 (hfile hy').2 hnull heq

theorem SlotInv.closeFile (h : SlotInv k) {f : Nat} {x y : File} (hx : k.file f = some x)
    (hsock : y.sock = x.sock) : (closeFile k f y).Ensures SlotInv := by
  unfold Files.closeFile
  split
  · split
    · exact .undefined
    · refine .ret (h.of_quiet (Quiet.trans ?_ (.freeFile _)))
      exact .of_same rfl rfl
  · rename_i i _ hi
    exact .ret (h.release _ hx (hsock.symm.trans hi) fun j hj => sockClose_refs k.net hj)
  · exact .undefined
  · refine .after fun ⟨v, _⟩ => .ret (h.of_quiet ?_)
    have hquiet : Quiet k { k with vfs := v } := .of_same rfl rfl
    exact hquiet.trans (.freeFile _)
  · exact .ret (h.of_quiet (.freeFile _))

theorem SlotInv.releaseFd (h : SlotInv k) (i : Fin maxFds) :
    (releaseFd k t i).Ensures SlotInv := by
  unfold Files.releaseFd
  split
  · exact .ret h
  refine .bind (fun _ hx => load_eq_ret.mp hx) fun x hx => ?_
  refine .bind (P := SlotInv) ?_ fun _ hk => .ret (hk.of_quiet (.of_same rfl rfl))
  unfold dropFile
  split
  · exact h.closeFile hx rfl
  · exact .ret (h.of_quiet (.setFile (.inr ⟨x, hx, rfl⟩)))

theorem SlotInv.sysDup2 (h : SlotInv k) (oldfd newfd : Nat) :
    (sysDup2 k t oldfd newfd).Ensures fun p => SlotInv p.1 := by
  unfold Files.sysDup2
  split
  · refine .bind (h.releaseFd _) fun k₁ hk₁ => ?_
    dsimp only
    split
    · refine .bind (quiet_retainFile _) fun k₂ hq => .ret ?_
      refine hk₁.of_quiet (Quiet.trans ?_ hq)
      exact .of_same rfl rfl
    · exact .ret (hk₁.of_quiet (.of_same rfl rfl))
  · exact .ret h

theorem SlotInv.taskExit (h : SlotInv k) : (taskExit k t).Ensures SlotInv :=
  Exec.Ensures.foldlM (fun _ k => SlotInv k) (fun i _ _ hk => hk.releaseFd i)
    (h.of_quiet (.of_same rfl rfl))

/-- A failed `pipe` lets go of the end it had. -/
theorem SlotInv.openPipe (h : SlotInv k) (p r w : Nat) :
    (openPipe k t p r w .null .null).Ensures fun q => SlotInv q.1 := by
  unfold Files.openPipe
  dsimp only
  generalize hk₁ : ({ k with
    pipe := Function.update k.pipe p (some ⟨⟨fun _ => 0, 0, 0, 0⟩, 1, 1, false⟩) } : Kernel) = k₁
  generalize hk₂ : k₁.putFile r (.readEnd p) (pipeFile p 0 .null) = k₂
  generalize hk₃ : k₂.putFile w (.writeEnd p) (pipeFile p 1 .null) = k₃
  have hq₁ : Quiet k k₁ := hk₁ ▸ .of_same rfl rfl
  have hq₂ : Quiet k₁ k₂ := hk₂ ▸ (Quiet.setFile (.inl rfl)).trans (.of_same rfl rfl)
  have hq₃ : Quiet k₂ k₃ := hk₃ ▸ (Quiet.setFile (.inl rfl)).trans (.of_same rfl rfl)
  have hq₄ := quiet_allocFd (k := k₃) (t := t) r
  have hq₅ := quiet_allocFd (k := (allocFd k₃ t r).1) (t := t) w
  have hk₅ := h.of_quiet (((hq₁.trans hq₂).trans hq₃).trans (hq₄.trans hq₅))
  split
  · exact .ret hk₅
  · exact .bind (hk₅.releaseFd _) fun _ hk => .ret hk
  · exact .bind (hk₅.releaseFd _) fun _ hk => .ret hk
  · exact .ret hk₅

theorem SlotInv.sysPipe (h : SlotInv k) :
    (sysPipe k t .null .null).Ensures fun p => SlotInv p.1 := by
  rintro ⟨k', ret⟩ hrun
  have hdrawn (n : Nat) (block : Nat → Option Nat) : SlotInv (drawnTo k n block) := h.of_quiet (.of_same rfl rfl)
  obtain ⟨block, -, ⟨-, -, n, rfl⟩ | ⟨-, hopen⟩⟩ := sysPipe_blocks hrun
  · exact hdrawn n block
  · exact (hdrawn 4 block).openPipe _ _ _ _ hopen

/-- A file that is made with a slot that was free. -/
theorem SlotInv.take (h : SlotInv k) {f : Nat} {x : File} {i : Fin maxSockets} {n : Net}
    (held : Held) (hsock : x.sock = .slot i) (hfree : (k.net.slot i).refCount = 0)
    (hi : 0 < (n.slot i).refCount)
    (hn : ∀ j, j ≠ i → (n.slot j).refCount = (k.net.slot j).refCount) :
    SlotInv ({ k with net := n }.putFile f held x) := by
  have hfile {g : Nat} {y : File} (hy : ({ k with net := n }.putFile f held x).file g = some y) :
      g = f ∧ y = x ∨ k.file g = some y := by
    rw [putFile_file] at hy
    by_cases hg : g = f
    · rw [hg, Function.update_self, Option.some.injEq] at hy
      exact .inl ⟨hg, hy.symm⟩
    · rw [Function.update_of_ne hg] at hy
      exact .inr hy
  -- no file had the slot, as it was free
  have hnobody {g : Nat} {y : File} (hy : k.file g = some y) : y.sock ≠ .slot i := by
    intro heq
    have hpos := h.live g y i hy heq
    rw [hfree] at hpos
    exact absurd hpos (by decide)
  refine ⟨fun g y j hy hj => ?_, fun g g' y y' hy hy' hnull heq => ?_⟩
  · show 0 < (n.slot j).refCount
    rcases hfile hy with ⟨_, rfl⟩ | hy
    · rw [hsock, SockPtr.slot.injEq] at hj
      exact hj ▸ hi
    · rw [hn j]
      · exact h.live g y j hy hj
      · rintro rfl
        exact hnobody hy hj
  · rcases hfile hy with ⟨hg, hyx⟩ | hyk <;> rcases hfile hy' with ⟨hg', hyx'⟩ | hyk'
    · exact hg.trans hg'.symm
    · exact absurd (heq.symm.trans (hyx ▸ hsock)) (hnobody hyk')
    · exact absurd (heq.trans (hyx' ▸ hsock)) (hnobody hyk)
    · exact h.own g g' y y' hyk hyk' hnull heq

theorem SlotInv.sysSocket (h : SlotInv k) (domain type protocol : Nat) :
    (sysSocket k t domain type protocol).Ensures fun p => SlotInv p.1 := by
  unfold Files.sysSocket
  rcases sockCreate_cases k.net domain type protocol with heq | ⟨i, hfree, hres, hslot⟩
  · rw [heq]
    exact .ret h
  · generalize hc : sockCreate k.net domain type protocol = c at hres hslot
    obtain ⟨n, p⟩ := c
    obtain rfl : p = some i := hres
    have hi : 0 < (n.slot i).refCount := by
      rw [show n.slot = _ from hslot, Function.update_self]
      exact Int.one_pos
    have hn (j : Fin maxSockets) (hj : j ≠ i) : (n.slot j).refCount = (k.net.slot j).refCount := by
      rw [show n.slot = _ from hslot, Function.update_of_ne hj]
    -- after a failure the slot is free again, and no file has it
    have hback (k' : Kernel) (hfile : ∀ g y, k'.file g = some y → k.file g = some y)
        (hnet : k'.net = sockDestroy n i) : SlotInv k' := by
      refine ⟨fun g y j hy hj => ?_, fun g g' y y' hy hy' => ?_⟩
      · have hpos := h.live g y j (hfile g y hy) hj
        rw [hnet, sockDestroy_refs, hn]
        · exact hpos
        all_goals
          rintro rfl
          rw [hfree] at hpos
          exact absurd hpos (by decide)
      · exact h.own g g' y y' (hfile g y hy) (hfile g' y' hy')
    dsimp only
    refine .bind (kmalloc_ensures _ _) fun ⟨k₁, q⟩ hk₁ => ?_
    obtain ⟨v, rfl, _, _⟩ := hk₁
    cases q with
    | none => exact .ret (hback _ (fun _ _ hy => hy) rfl)
    | some f =>
        dsimp only
        generalize hx : (⟨none, 0, 0, 1, none, 0, .slot i⟩ : File) = x
        have hsock : x.sock = .slot i := by rw [← hx]
        have h₁ : SlotInv { k with vfs := v } := h.of_quiet (.of_same rfl rfl)
        have htake := h₁.take (f := f) (n := n) (.sock i) hsock hfree hi hn
        generalize hk₂ : ({ k with net := n, vfs := v } : Kernel).putFile f (.sock i) x = k₂
        have halloc := quiet_allocFd (k := k₂) (t := t) f
        have hfile : (allocFd k₂ t f).1.file = Function.update k.file f (some x) := by
          rw [← hk₂]
          unfold allocFd
          split <;> rfl
        have hnet : (allocFd k₂ t f).1.net = n := by
          rw [← hk₂]
          unfold allocFd
          split <;> rfl
        split
        · rename_i k₃ _ heq
          rw [heq] at halloc
          exact .ret ((hk₂ ▸ htake).of_quiet halloc)
        · rename_i k₃ heq
          rw [heq] at hfile hnet
          refine .ret (hback _ (fun g y hy => ?_) ?_)
          · have hy : Function.update k₃.file f none g = some y := hy
            rw [show k₃.file = _ from hfile, Function.update_idem] at hy
            by_cases hg : g = f
            · rw [hg, Function.update_self] at hy
              cases hy
            · rwa [Function.update_of_ne hg] at hy
          · show sockDestroy k₃.net i = _
            rw [show k₃.net = _ from hnet]

/-- Every call keeps the invariant while sockets are kept. -/
theorem SlotInv.run (h : SlotInv k) {e : FdEvent} (hg : SocketsKept k e) :
    (e.run k).Ensures SlotInv := by
  -- for a call whose result is dropped
  have hcall {x : Exec (Kernel × Int)} (hx : x.Ensures fun p => SlotInv p.1) :
      (x >>= fun p => Exec.ret p.1).Ensures SlotInv := .bind hx fun _ hp => .ret hp
  cases e with
  | openPath t c path flags stale =>
      obtain rfl : stale = .null := hg
      exact hcall (Quiet.ensures h quiet_sysOpen)
  | pipe t stale stale' =>
      obtain ⟨rfl, rfl⟩ : stale = .null ∧ stale' = .null := hg
      exact hcall h.sysPipe
  | socket t domain type protocol => exact hcall (h.sysSocket domain type protocol)
  | dup t fd => exact hcall (Quiet.ensures h (quiet_sysDup fd))
  | dup2 t oldfd newfd => exact hcall (h.sysDup2 oldfd newfd)
  | close t fd =>
      refine hcall ?_
      unfold sysClose
      split
      · exact .bind (h.releaseFd _) fun _ hk => .ret hk
      · exact .ret h
  | fork t => exact hcall (Quiet.ensures h quiet_forkTask)
  | exit t => exact h.taskExit
  | kill t target =>
      show (sysKill k t target).Ensures _
      unfold sysKill
      split
      · exact h.taskExit
      · exact .ret (h.of_quiet (.of_same rfl rfl))
  | wait t c =>
      show (wait4 k t c).Ensures _
      unfold wait4
      split
      · exact .ret (h.of_quiet (.of_same rfl rfl))
      · exact .ret h
  | spawn stale => exact (quiet_createUserTask hg).mono fun _ hq => h.of_quiet hq
  | write t fd buffer => exact hcall (Quiet.ensures h (quiet_sysWrite fd buffer))
  | read t fd valid buf count =>
      exact .bind (Quiet.ensures h (quiet_sysRead fd valid buf count)) fun _ hp => .ret hp
  | shutdown t fd =>
      show (sysShutdown k t fd).Ensures _
      unfold sysShutdown
      split
      · exact .ret h
      rename_i f hf
      refine .bind (fun _ hx => load_eq_ret.mp hx) fun x hx => ?_
      rw [hg f x hf hx]
      exact .ret h
  | sockCall t fd e => exact (quiet_sysSockCall fd e).mono fun _ hq => h.of_quiet hq
  | segment seg =>
      refine .ret (h.of_quiet (.of_net fun j => ?_))
      exact (staysClosed_socketTcpInput k.net seg j).refCount
  | path t call =>
      show Exec.Ensures (if onPaths call then _ else _) _
      split
      · exact .after fun v => .ret (h.of_quiet (.of_same rfl rfl))
      · exact .ret h

theorem SlotInv.socketsOwned (h : SlotInv k) : SocketsOwned k :=
  ⟨h.own, fun _ _ _ f x i _ hx hi => h.live f x i hx hi⟩

end Sockets

/-- In every run in which no socket is shut down and new files find no stale
socket in memory, no two files share a socket, and the socket of an open
descriptor is not free. -/
theorem sockets_owned_while_kept {k : Kernel} (h : fdSystem.ReachVia SocketsKept k) :
    SocketsOwned k := by
  refine SlotInv.socketsOwned (System.ReachVia.invariant ?_ ?_ h)
  · intro k hk
    refine ⟨fun f x i hx => ?_, fun f g x y hx => ?_⟩
    · rw [hk.file f] at hx
      cases hx
    · rw [hk.file f] at hx
      cases hx
  · rintro k e k' hi hg ⟨_, hrun⟩
    exact hi.run hg k' hrun

/-- A task opens two sockets and closes one. -/
theorem sockets_of_one_task : ∃ k, fdSystem.ReachVia SocketsKept k ∧ k.tasks = [1] ∧
    k.fd (1, 4) ≠ none ∧ SocketsOwned k := by
  obtain ⟨k, hrun, htasks, hfd⟩ : ∃ k, runAll quietKernel
      [.spawn fun _ => .null, .socket 1 afInet sockStream 0, .socket 1 afInet sockDgram 0,
        .close 1 3] = .ret k ∧ k.tasks = [1] ∧ k.fd (1, 4) ≠ none := ⟨_, rfl, rfl, by decide⟩
  have hreach : fdSystem.ReachVia SocketsKept k := by
    refine reach_runAll (.init quietKernel_boot) ?_ hrun
    simp [SocketsKept]
  exact ⟨k, hreach, htasks, hfd, sockets_owned_while_kept hreach⟩

/-- A socket that is shut down is handed out again: descriptors 3 and 4 are
two files with one socket. -/
theorem shutdown_shares_slot : ¬∀ k, fdSystem.Reach k → SocketsOwned k := by
  intro hall
  obtain ⟨k, hrun, h3, h4⟩ : ∃ k, runAll quietKernel
      [.spawn fun _ => .null, .socket 1 afInet sockStream 0, .shutdown 1 3,
        .socket 1 afInet sockStream 0] = .ret k ∧
      (k.file 5).map File.sock = some (.slot 0) ∧ (k.file 6).map File.sock = some (.slot 0) :=
    ⟨_, rfl, rfl, rfl⟩
  have howned := (hall k (reach_runAll (.init quietKernel_boot) (fun _ _ _ => trivial) hrun)).1
  obtain ⟨x, hx, hxs⟩ := Option.map_eq_some_iff.mp h3
  obtain ⟨y, hy, hys⟩ := Option.map_eq_some_iff.mp h4
  exact absurd (howned 5 6 x y hx hy (by rw [hxs]; nofun) (hxs.trans hys.symm)) (by decide)

end LiteBSD.Files
