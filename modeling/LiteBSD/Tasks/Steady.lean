/-
# `LiteBSD.Tasks.Steady` — what holds of descriptors and task memory at all times

An open file is counted at least once, whatever has become of its slots, and
files, pipes, tasks and the blocks that a task owns lie below the supply of
addresses.  With the file system settled this is all that the life of a task
needs of the state it starts in; it is kept by every event, whether or not a
file is shared too often, a block given back by `munmap`, or a pid used
twice.
-/
import LiteBSD.Execve.Failure
import LiteBSD.Tasks.Model

namespace LiteBSD.Tasks

open Lib Files

/-! ## Descriptors -/

/-- The descriptors are in order, and `k` has the tasks of `k₀` and is not
behind it in the supply. -/
structure Steady (k₀ k : Kernel) : Prop where
  vfs : Settled k.vfs
  file : ∀ f x, k.file f = some x → f < k.vfs.nextObj ∧ 0 < x.refCount
  pipe : ∀ p, k.pipe p ≠ none → p < k.vfs.nextObj
  tasks : k.tasks = k₀.tasks
  supply : k₀.vfs.nextObj ≤ k.vfs.nextObj
  block : ∀ b, k.block b ≠ none → b < k.vfs.nextObj

section Blocks

variable {v v' : Vfs}

/-- Taking and giving back blocks of data changes no node but for how often
the root is counted. -/
theorem settled_of_rootOnly (h : Settled v) (hnodes : v'.nodes = v.nodes) (hroot : Execve.RootOnly v.node v'.node)
    (hsup : v.nextObj ≤ v'.nextObj) (hfresh : ∀ b, v'.nextObj ≤ b → v'.buf b = none ∧ v'.cell b = none) :
    Settled v' := by
  obtain ⟨hsame, r, refs, hr, hle, hr'⟩ := hroot
  -- every node is one of before, with another count at most
  have hback : ∀ a n', v'.node a = some n' → ∃ n, v.node a = some n ∧ n'.synth = n.synth ∧ n'.data = n.data ∧
      n.refs ≤ n'.refs := by
    intro a n' hn'
    by_cases ha : a = rootAddr
    · subst ha
      rw [hr', Option.some.injEq] at hn'
      subst hn'
      exact ⟨r, hr, rfl, rfl, hle⟩
    · rw [hsame a ha] at hn'
      exact ⟨n', hn', rfl, rfl, Int.le_refl _⟩
  refine ⟨⟨hnodes ▸ h.table.nodup, ⟨_, hr', ?_⟩, hnodes ▸ h.table.rootOff, fun a ha => ?_, fun a n' hn' hoff => ?_,
    fun a ha => ?_⟩, h.texts.of_nodes hsup fun a n' hn' => ?_, hfresh, fun a n' hn' => ?_⟩
  · obtain ⟨n, hn, hdir⟩ := h.table.root
    rw [hr, Option.some.injEq] at hn
    subst hn
    exact hdir
  · rw [hnodes] at ha
    obtain ⟨n, hn, hreal⟩ := h.table.listed a ha
    have hne : a ≠ rootAddr := fun hroot => h.table.rootOff (hroot ▸ ha)
    exact ⟨n, (hsame a hne).trans hn, hreal⟩
  · obtain ⟨n, hn, hsynth, _⟩ := hback a n' hn'
    rw [hnodes] at hoff
    exact (h.table.unlisted a n hn hoff).imp_right hsynth.trans
  · have hnone := h.table.fresh a (Nat.le_trans hsup ha)
    have hne : a ≠ rootAddr := by
      rintro rfl
      rw [hr] at hnone
      cases hnone
    rw [hsame a hne, hnone]
  · obtain ⟨n, hn, hsynth, hdata, _⟩ := hback a n' hn'
    exact ⟨n, hn, hsynth, fun d hd => .inl (hdata ▸ hd)⟩
  · obtain ⟨n, hn, _, _, hrefs⟩ := hback a n' hn'
    exact Int.le_trans (h.counts a n hn) hrefs

theorem settled_of_untouched (h : Settled v) (hu : Untouched v v') : Settled v' := by
  have hroot : Execve.RootOnly v.node v'.node := by
    rw [hu.node]
    exact .refl h.table
  refine settled_of_rootOnly h hu.nodes hroot hu.supply fun b hb => ?_
  rw [hu.buf, hu.cell]
  exact h.fresh b (Nat.le_trans hu.supply hb)

end Blocks

section Kernel

variable {k₀ k k' : Kernel} {t : Nat}

theorem Steady.rest (h : Steady k₀ k) (hvfs : k'.vfs = k.vfs) (hfile : k'.file = k.file) (hpipe : k'.pipe = k.pipe)
    (htasks : k'.tasks = k.tasks) (hblock : k'.block = k.block) : Steady k₀ k' := by
  obtain ⟨hv, hf, hp, ht, hs, hb⟩ := h
  rw [← hvfs] at hv hf hp hs hb
  exact ⟨hv, by rw [hfile]; exact hf, by rw [hpipe]; exact hp, htasks.trans ht, hs, by rw [hblock]; exact hb⟩

theorem Steady.withVfs (h : Steady k₀ k) {v : Vfs} (hv : Settled v) (hle : k.vfs.nextObj ≤ v.nextObj) :
    Steady k₀ { k with vfs := v } :=
  ⟨hv, fun f x hx => ⟨Nat.lt_of_lt_of_le (h.file f x hx).1 hle, (h.file f x hx).2⟩,
    fun p hp => Nat.lt_of_lt_of_le (h.pipe p hp) hle, h.tasks, Nat.le_trans h.supply hle,
    fun b hb => Nat.lt_of_lt_of_le (h.block b hb) hle⟩

/-- One file is counted anew. -/
theorem Steady.setFile (h : Steady k₀ k) {f : Nat} {x : File} (hf : f < k.vfs.nextObj) (hx : 0 < x.refCount) :
    Steady k₀ (k.setFile f x) := by
  refine ⟨h.vfs, fun g y hy => ?_, h.pipe, h.tasks, h.supply, h.block⟩
  have hy : Function.update k.file f (some x) g = some y := hy
  by_cases hg : g = f
  · subst hg
    rw [Function.update_self, Option.some.injEq] at hy
    exact hy ▸ ⟨hf, hx⟩
  · rw [Function.update_of_ne hg] at hy
    exact h.file g y hy

theorem Steady.putFile (h : Steady k₀ k) {f : Nat} {x : File} (held : Held) (hf : f < k.vfs.nextObj)
    (hx : 0 < x.refCount) : Steady k₀ (k.putFile f held x) :=
  (h.setFile hf hx).rest rfl rfl rfl rfl rfl

theorem Steady.freeFile (h : Steady k₀ k) (f : Nat) (held : Held) : Steady k₀ (k.freeFile f held) := by
  refine ⟨h.vfs, fun g y hy => ?_, h.pipe, h.tasks, h.supply, h.block⟩
  have hy : Function.update k.file f none g = some y := hy
  by_cases hg : g = f
  · rw [hg, Function.update_self] at hy
    cases hy
  · rw [Function.update_of_ne hg] at hy
    exact h.file g y hy

/-- A pipe at an address that is in use is stored, or freed. -/
theorem Steady.setPipe (h : Steady k₀ k) {p : Nat} (q : Option Pipe) (hp : p < k.vfs.nextObj) :
    Steady k₀ { k with pipe := Function.update k.pipe p q } := by
  refine ⟨h.vfs, h.file, fun r hr => ?_, h.tasks, h.supply, h.block⟩
  by_cases hrp : r = p
  · exact hrp ▸ hp
  · have hr : Function.update k.pipe p q r ≠ none := hr
    rw [Function.update_of_ne hrp] at hr
    exact h.pipe r hr

theorem Steady.call (h : Steady k₀ k) (call : VfsCall) :
    (vfsCall k.vfs call).Ensures fun v => Steady k₀ { k with vfs := v } :=
  fun _ hs => h.withVfs (h.vfs.step hs) (h.vfs.table.supply_step hs)

theorem Steady.vfsOpen (h : Steady k₀ k) (c : Caller) (path : CStr) (flags : Nat) :
    (vfsOpen k.vfs c path flags).Ensures fun p => Steady k₀ { k with vfs := p.1 } := by
  rintro ⟨v, p⟩ hv
  exact h.call (.openPath c path flags) v (by rw [vfsCall, hv]; rfl)

theorem Steady.vfsClose (h : Steady k₀ k) (n : Nat) :
    (vfsClose k.vfs n).Ensures fun p => Steady k₀ { k with vfs := p.1 } := by
  rintro ⟨v, p⟩ hv
  exact h.call (.close n) v (by rw [vfsCall, hv]; rfl)

theorem Steady.vfsWrite (h : Steady k₀ k) (n offset : Nat) (buf : List UInt8) :
    (vfsWrite k.vfs n offset buf).Ensures fun p => Steady k₀ { k with vfs := p.1 } := by
  rintro ⟨v, p⟩ hv
  exact h.call (.write n offset buf) v (by rw [vfsCall, hv]; rfl)

theorem Steady.truncOnOpen (h : Steady k₀ k) (n flags : Nat) :
    (truncOnOpen k.vfs n flags).Ensures fun v => Steady k₀ { k with vfs := v } := by
  unfold Files.truncOnOpen
  split
  · refine .bind (P := fun p => Steady k₀ { k with vfs := p.1 }) ?_ fun _ hp => .ret hp
    rintro ⟨v, p⟩ hv
    exact h.call (.truncate n 0) v (by rw [vfsCall, hv]; rfl)
  · exact .ret h

/-- A block from the supply. -/
theorem Steady.kmalloc (h : Steady k₀ k) (size : Nat) :
    (k.kmalloc size).Ensures fun p => Steady k₀ p.1 ∧ k.vfs.nextObj ≤ p.1.vfs.nextObj ∧
      ∀ a, p.2 = some a → a < p.1.vfs.nextObj := by
  refine (kmalloc_ensures k size).mono fun ⟨k', p⟩ ⟨v, hk, hu, hp⟩ => ?_
  obtain rfl : k' = _ := hk
  refine ⟨h.withVfs (settled_of_untouched h.vfs hu) hu.supply, hu.supply, fun a ha => ?_⟩
  obtain ⟨rfl, hnext⟩ := hp a ha
  exact hnext ▸ Nat.lt_succ_self _

theorem Steady.allocFd (h : Steady k₀ k) (f : Nat) : Steady k₀ (allocFd k t f).1 := by
  unfold Files.allocFd
  split
  · exact h
  · exact h.rest rfl rfl rfl rfl rfl

theorem Steady.retainFile (h : Steady k₀ k) (f : Nat) : (retainFile k f).Ensures (Steady k₀) := by
  refine .bind (fun _ hx => load_eq_ret.mp hx) fun x hx => .ret ?_
  obtain ⟨hf, hpos⟩ := h.file f x hx
  exact h.setFile hf (Int.lt_add_one_of_le (Int.le_of_lt hpos))

theorem Steady.closeFile (h : Steady k₀ k) (f : Nat) (x : File) : (closeFile k f x).Ensures (Steady k₀) := by
  unfold Files.closeFile
  split
  · split
    · exact .undefined
    · rename_i q hq
      refine .ret ((h.setPipe _ (h.pipe _ ?_)).freeFile f _)
      rw [hq]
      exact Option.some_ne_none q
  · rename_i i _ _
    have hnet : Steady k₀ { k with net := (sockClose k.net i).1 } := h.rest rfl rfl rfl rfl rfl
    exact .ret (hnet.freeFile f _)
  · exact .undefined
  · exact .bind (h.vfsClose _) fun _ hv => .ret (hv.freeFile f _)
  · exact .ret (h.freeFile f _)

theorem Steady.releaseFd (h : Steady k₀ k) (i : Fin maxFds) : (releaseFd k t i).Ensures (Steady k₀) := by
  unfold Files.releaseFd
  split
  · exact .ret h
  rename_i f _
  refine .bind (fun _ hx => load_eq_ret.mp hx) fun x hx => ?_
  refine .bind (P := Steady k₀) ?_ fun _ hk => .ret (hk.rest rfl rfl rfl rfl rfl)
  unfold dropFile
  split
  · exact h.closeFile f x
  · rename_i hmore
    exact .ret (h.setFile (h.file f x hx).1 (Int.not_le.mp hmore))

/-! ## The calls -/

theorem Steady.openNode (h : Steady k₀ k) (n flags : Nat) (stale : SockPtr) :
    (Files.openNode k t n flags stale).Ensures fun p => Steady k₀ p.1 := by
  unfold Files.openNode
  refine .bind (h.kmalloc _) fun ⟨k₁, p⟩ ⟨h₁, _, hp⟩ => ?_
  cases p with
  | none => exact .bind (h₁.vfsClose n) fun _ hv => .ret hv
  | some f =>
      refine .after fun offset => ?_
      dsimp only
      have hput := h₁.putFile (x := ⟨some n, offset, flags, 1, none, 0, stale⟩) (.node n) (hp f rfl) Int.one_pos
      have halloc := hput.allocFd (t := t) f
      split
      · rename_i heq
        rw [heq] at halloc
        exact .ret halloc
      · rename_i heq
        rw [heq] at halloc
        exact .bind (halloc.vfsClose n) fun _ hv => .ret (hv.freeFile f _)

theorem Steady.sysOpen (h : Steady k₀ k) (c : Caller) (path : CStr) (flags : Nat) (stale : SockPtr) :
    (sysOpen k t c path flags stale).Ensures fun p => Steady k₀ p.1 := by
  unfold Files.sysOpen
  refine .after fun refused => ?_
  split
  · exact .ret h
  refine .bind (h.vfsOpen c path flags) fun ⟨v, p⟩ hv => ?_
  cases p with
  | none => exact .ret hv
  | some n => exact .bind (hv.truncOnOpen n flags) fun w hw => hw.openNode n flags stale

theorem Steady.openPipe (h : Steady k₀ k) {p r w : Nat} (hp : p < k.vfs.nextObj) (hr : r < k.vfs.nextObj)
    (hw : w < k.vfs.nextObj) (stale stale' : SockPtr) :
    (openPipe k t p r w stale stale').Ensures fun q => Steady k₀ q.1 := by
  unfold Files.openPipe
  dsimp only
  have h₁ := h.setPipe (some ⟨⟨fun _ => 0, 0, 0, 0⟩, 1, 1, false⟩) hp
  have h₂ := h₁.putFile (x := pipeFile p 0 stale) (.readEnd p) hr Int.one_pos
  have h₃ := h₂.putFile (x := pipeFile p 1 stale') (.writeEnd p) hw Int.one_pos
  have h₅ := (h₃.allocFd (t := t) r).allocFd (t := t) w
  split
  · exact .ret h₅
  · exact .bind (h₅.releaseFd _) fun _ hk => .ret hk
  · exact .bind (h₅.releaseFd _) fun _ hk => .ret hk
  · exact .ret h₅

/-- What was taken and given back is not held. -/
theorem Steady.drawnTo (h : Steady k₀ k) (n : Nat) {block : Nat → Option Nat} (hbut : HeldBut k block []) :
    Steady k₀ (drawnTo k n block) := by
  have hu := untouched_drawnTo k n block
  obtain ⟨hv, hf, hp, ht, hs, hb⟩ := h.withVfs (settled_of_untouched h.vfs hu) hu.supply
  refine ⟨hv, hf, hp, ht, hs, fun b hne => ?_⟩
  rcases hbut b with hmem | hsame | ⟨-, hnone⟩
  · cases hmem
  · exact hb b (hsame ▸ hne)
  · exact absurd hnone hne

theorem Steady.sysPipe (h : Steady k₀ k) (stale stale' : SockPtr) :
    (sysPipe k t stale stale').Ensures fun p => Steady k₀ p.1 := by
  rintro ⟨k', ret⟩ hrun
  obtain ⟨block, hbut, ⟨-, -, n, rfl⟩ | ⟨-, hopen⟩⟩ := sysPipe_blocks hrun
  · exact h.drawnTo n hbut
  · have hnew (i : Nat) (hi : i < 4) : k.vfs.nextObj + i < (Files.drawnTo k 4 block).vfs.nextObj :=
      Nat.add_lt_add_left hi _
    exact (h.drawnTo 4 hbut).openPipe (hnew 0 (by decide)) (hnew 2 (by decide)) (hnew 3 (by decide)) stale stale' _ hopen

theorem Steady.sysSocket (h : Steady k₀ k) (domain type protocol : Nat) :
    (sysSocket k t domain type protocol).Ensures fun p => Steady k₀ p.1 := by
  unfold Files.sysSocket
  generalize sockCreate k.net domain type protocol = c
  obtain ⟨net, s⟩ := c
  have hnet : ∀ net, Steady k₀ { k with net := net } := fun _ => h.rest rfl rfl rfl rfl rfl
  cases s with
  | none => exact .ret (hnet net)
  | some s =>
      refine .bind ((hnet net).kmalloc _) fun ⟨k₁, p⟩ ⟨h₁, _, hp⟩ => ?_
      have hback : ∀ k', Steady k₀ k' → Steady k₀ { k' with net := sockDestroy k'.net s } :=
        fun _ hk => hk.rest rfl rfl rfl rfl rfl
      cases p with
      | none => exact .ret (hback k₁ h₁)
      | some f =>
          dsimp only
          have hput := h₁.putFile (x := ⟨none, 0, 0, 1, none, 0, .slot s⟩) (.sock s) (hp f rfl) Int.one_pos
          have halloc := hput.allocFd (t := t) f
          split
          · rename_i heq
            rw [heq] at halloc
            exact .ret halloc
          · rename_i heq
            rw [heq] at halloc
            exact .ret ((hback _ halloc).freeFile f _)

theorem Steady.sysDup (h : Steady k₀ k) (fd : Nat) : (sysDup k t fd).Ensures fun p => Steady k₀ p.1 := by
  unfold Files.sysDup
  split
  · exact .ret h
  · rename_i f _
    have halloc := h.allocFd (t := t) f
    split
    · rename_i heq
      rw [heq] at halloc
      exact .ret halloc
    · rename_i heq
      rw [heq] at halloc
      exact .bind (halloc.retainFile f) fun _ hk => .ret hk

theorem Steady.sysDup2 (h : Steady k₀ k) (oldfd newfd : Nat) :
    (sysDup2 k t oldfd newfd).Ensures fun p => Steady k₀ p.1 := by
  unfold Files.sysDup2
  split
  · refine .bind (h.releaseFd _) fun k₁ h₁ => ?_
    dsimp only
    have hset : ∀ i p, Steady k₀ (k₁.setFd t i p) := fun _ _ => h₁.rest rfl rfl rfl rfl rfl
    split
    · exact .bind ((hset _ _).retainFile _) fun _ hk => .ret hk
    · exact .ret (h₁.rest rfl rfl rfl rfl rfl)
  · exact .ret h

theorem Steady.sysClose (h : Steady k₀ k) (fd : Nat) : (sysClose k t fd).Ensures fun p => Steady k₀ p.1 := by
  unfold Files.sysClose
  split
  · exact .bind (h.releaseFd _) fun _ hk => .ret hk
  · exact .ret h

theorem Steady.fileWrite (h : Steady k₀ k) {f : Nat} {x : File} (hx : k.file f = some x) (buf : List UInt8) :
    (fileWrite k f x buf).Ensures fun p => Steady k₀ p.1 := by
  unfold Files.fileWrite
  split
  · exact .ret (h.rest rfl rfl rfl rfl rfl)
  · exact .undefined
  · split
    · exact .undefined
    · rename_i q hq
      refine .after fun _ => .ret (h.setPipe _ (h.pipe _ ?_))
      rw [hq]
      exact Option.some_ne_none q
  · rename_i n _ _ _
    refine .after fun offset => .bind (h.vfsWrite n offset buf) fun ⟨v, written⟩ hv => .ret ?_
    obtain ⟨hf, hpos⟩ := hv.file f x hx
    exact hv.setFile hf hpos
  · exact .ret h

theorem Steady.fileRead (h : Steady k₀ k) {f : Nat} {x : File} (hx : k.file f = some x) (count : Nat) :
    (fileRead k f x count).Ensures fun p => Steady k₀ p.1 := by
  obtain ⟨hf, hpos⟩ := h.file f x hx
  unfold Files.fileRead
  split
  · exact .ret (h.rest rfl rfl rfl rfl rfl)
  · exact .undefined
  · split
    · exact .undefined
    · rename_i q hq
      refine .after fun _ => .ret (h.setPipe _ (h.pipe _ ?_))
      rw [hq]
      exact Option.some_ne_none q
  · exact .after fun _ => .ret (h.setFile hf hpos)
  · exact .ret h

theorem Steady.sysWrite (h : Steady k₀ k) (fd : Nat) (buffer : Option (List UInt8)) :
    (sysWrite k t fd buffer).Ensures fun p => Steady k₀ p.1 := by
  unfold Files.sysWrite
  split
  · exact .ret h
  refine .after fun console => ?_
  split
  · exact .ret (h.rest rfl rfl rfl rfl rfl)
  split
  · exact .ret h
  · exact .bind (fun _ hx => load_eq_ret.mp hx) fun x hx => h.fileWrite hx _

theorem Steady.sysRead (h : Steady k₀ k) (fd : Nat) (valid : Bool) (buf : Nat → UInt8) (count : Nat) :
    (sysRead k t fd valid buf count).Ensures fun p => Steady k₀ p.1 := by
  unfold Files.sysRead
  split
  · exact .ret h
  refine .after fun console => ?_
  split
  · exact .after fun _ => .ret (h.rest rfl rfl rfl rfl rfl)
  split
  · exact .ret h
  · refine .bind (fun _ hx => load_eq_ret.mp hx) fun x hx => ?_
    exact .bind (h.fileRead hx count) fun _ hk => .ret hk

/-- Every call that is not about tasks. -/
theorem Steady.run (h : Steady k₀ k) {e : FdEvent} (he : ¬aboutTasks e = true) : (e.run k).Ensures (Steady k₀) := by
  -- for a call whose result is dropped
  have hcall {x : Exec (Kernel × Int)} (hx : x.Ensures fun p => Steady k₀ p.1) :
      (x >>= fun p => Exec.ret p.1).Ensures (Steady k₀) := .bind hx fun _ hp => .ret hp
  cases e with
  | openPath t c path flags stale => exact hcall (h.sysOpen c path flags stale)
  | pipe t stale stale' => exact hcall (h.sysPipe stale stale')
  | socket t domain type protocol => exact hcall (h.sysSocket domain type protocol)
  | dup t fd => exact hcall (h.sysDup fd)
  | dup2 t oldfd newfd => exact hcall (h.sysDup2 oldfd newfd)
  | close t fd => exact hcall (h.sysClose fd)
  | fork t => exact absurd rfl he
  | exit t => exact absurd rfl he
  | kill t target => exact absurd rfl he
  | wait t c => exact absurd rfl he
  | spawn stale => exact absurd rfl he
  | write t fd buffer => exact hcall (h.sysWrite fd buffer)
  | read t fd valid buf count => exact .bind (h.sysRead fd valid buf count) fun _ hp => .ret hp
  | shutdown t fd =>
      show (sysShutdown k t fd).Ensures _
      unfold sysShutdown
      split
      · exact .ret h
      refine .after fun x => ?_
      split
      · exact .ret h
      · exact .undefined
      · exact .ret (h.rest rfl rfl rfl rfl rfl)
  | sockCall t fd e =>
      show (sysSockCall k t fd e).Ensures _
      unfold sysSockCall
      split
      · exact .ret h
      refine .after fun x => ?_
      split
      · exact .ret h
      · exact .undefined
      · refine .ret ?_
        split
        · exact h.rest rfl rfl rfl rfl rfl
        · exact h
  | segment seg => exact .ret (h.rest rfl rfl rfl rfl rfl)
  | path t call =>
      show Exec.Ensures (if onPaths call then _ else _) _
      split
      · exact .bind (h.call call) fun _ hv => .ret hv
      · exact .ret h

/-! ## Every state that is reached -/

/-- Nothing about the tasks matters to a state by itself. -/
theorem Steady.retask (h : Steady k₀ k) (hvfs : k'.vfs = k.vfs) (hfile : k'.file = k.file) (hpipe : k'.pipe = k.pipe)
    (hblock : k'.block = k.block) : Steady k' k' := by
  obtain ⟨hv, hf, hp, -, -, hb⟩ := h
  rw [← hvfs] at hv hf hp hb
  exact ⟨hv, by rw [hfile]; exact hf, by rw [hpipe]; exact hp, rfl, Nat.le_refl _, by rw [hblock]; exact hb⟩

theorem Steady.self (h : Steady k₀ k) : Steady k k := h.retask rfl rfl rfl rfl

theorem Steady.forkTask (h : Steady k k) : (Files.forkTask k t).Ensures fun p => Steady p.1 p.1 := by
  unfold Files.forkTask
  refine .bind (h.kmalloc _) fun ⟨k₁, stack⟩ ⟨h₁, _⟩ => ?_
  cases stack with
  | none => exact .ret h₁.self
  | some stack =>
      refine .bind (h₁.kmalloc _) fun ⟨k₂, child⟩ ⟨h₂, _⟩ => ?_
      cases child with
      | none => exact .ret h₂.self
      | some child =>
          refine .bind (h₂.kmalloc _) fun ⟨k₃, ustack⟩ ⟨h₃, _⟩ => ?_
          cases ustack with
          | none => exact .ret (h₃.retask rfl rfl rfl rfl)
          | some ustack =>
              dsimp only
              have hchild : Steady (addOwner k₃ child ⟨k₃.nextPid, (k₃.owner t).pid, false⟩)
                  (addOwner k₃ child ⟨k₃.nextPid, (k₃.owner t).pid, false⟩) := h₃.retask rfl rfl rfl rfl
              refine .bind (Exec.Ensures.foldlM (fun _ => Steady _) (fun i rest s hs => ?_) hchild) fun s hs =>
                .ret hs.self
              have hslot : Steady (addOwner k₃ child ⟨k₃.nextPid, (k₃.owner t).pid, false⟩)
                  (s.setFd child i (s.fd (t, i))) := hs.rest rfl rfl rfl rfl rfl
              unfold copyFd
              split
              · exact .ret hslot
              · exact hslot.retainFile _

theorem Steady.taskExit (h : Steady k k) : (Files.taskExit k t).Ensures fun p => Steady p p := by
  unfold Files.taskExit
  refine (Exec.Ensures.foldlM (fun _ => Steady k) (fun i rest s hs => hs.releaseFd i) ?_).mono fun s hs => hs.self
  exact h.rest rfl rfl rfl rfl rfl

theorem Steady.createUserTask (h : Steady k k) (stale : Fin maxFds → SockPtr) :
    (Files.createUserTask k stale).Ensures fun p => Steady p p := by
  unfold Files.createUserTask
  refine .bind (h.kmalloc _) fun ⟨k₁, task⟩ ⟨h₁, _⟩ => ?_
  cases task with
  | none => exact .ret h₁.self
  | some a =>
      dsimp only
      have hnew : Steady (addOwner k₁ a ⟨k₁.nextPid, 0, false⟩) (addOwner k₁ a ⟨k₁.nextPid, 0, false⟩) :=
        h₁.retask rfl rfl rfl rfl
      refine (Exec.Ensures.foldlM (fun _ => Steady _) (fun i rest s hs => ?_) hnew).mono fun s hs => hs.self
      unfold openStd
      refine .bind (hs.kmalloc _) fun ⟨s₁, p⟩ ⟨hs₁, _, hp⟩ => ?_
      cases p with
      | none => exact .ret hs₁
      | some f => exact .ret ((hs₁.putFile .console (hp f rfl) Int.one_pos).rest rfl rfl rfl rfl rfl)

/-- Every event. -/
theorem Steady.step {e : FdEvent} (h : Steady k k) : (e.run k).Ensures fun p => Steady p p := by
  by_cases he : aboutTasks e = true
  · cases e with
    | fork t => exact .bind h.forkTask fun _ hp => .ret hp
    | exit t => exact h.taskExit
    | kill t target =>
        show (Files.sysKill k t target).Ensures _
        unfold Files.sysKill
        split
        · exact h.taskExit
        · exact .ret (h.retask rfl rfl rfl rfl)
    | wait t c =>
        show (Files.wait4 k t c).Ensures _
        unfold Files.wait4
        split
        · exact .ret (h.retask rfl rfl rfl rfl)
        · exact .ret h
    | spawn stale => exact h.createUserTask stale
    | _ => cases he
  · exact (h.run he).mono fun _ hk => hk.self

/-- The runs that start without a pipe. -/
def pipelessSystem : System Kernel FdEvent where
  init := fun k => KernelBoot k ∧ ∀ p, k.pipe p = none
  step := fdSystem.step

theorem Steady.of_reach (h : pipelessSystem.Reach k) : Steady k k := by
  refine System.ReachVia.invariant (I := fun k => Steady k k) ?_ ?_ h
  · rintro k ⟨hb, hpipe⟩
    have hv : Settled k.vfs := .of_reach (.init ⟨_, _, hb.vfs⟩)
    refine ⟨hv, fun f x hf => ?_, fun p hp => absurd (hpipe p) hp, rfl, Nat.le_refl _,
      fun b hblock => absurd (hb.block b) hblock⟩
    rw [hb.file] at hf
    cases hf
  · rintro k e k' hk _ ⟨-, hs⟩
    exact hk.step k' hs

/-- A run from the kernel that is quiet. -/
theorem pipeless_runAll {es : List FdEvent} (hrun : runAll Files.quietKernel es = .ret k) : pipelessSystem.Reach k :=
  reach_runAll_of (S := pipelessSystem) (fun _ _ _ hs => hs) (.init ⟨quietKernel_boot, fun _ => rfl⟩)
    (fun _ _ _ => trivial) hrun

end Kernel

end LiteBSD.Tasks
