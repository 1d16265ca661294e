/-
# `LiteBSD.Files.Nodes` — open files and the nodes under them

`vfs_open` counts a node up and `vfs_close` counts it down, but the count
keeps only synthetic nodes alive; `vfs_unlink` and `vfs_rmdir` free the node
that they take off the list whoever has it open.  Nothing else takes a node
away from an open file.  Two facts carry that: the count of a file is never
below the number of its slots (`Lib.Covered`; it may be above, once a task was
reaped with descriptors), so that a file still installed is not closed, and a
synthetic node has one file.
-/
import Mathlib.Data.List.Flatten
import LiteBSD.Files.Moves

namespace LiteBSD.Files

open Lib

/-- Some descriptor's file is `f`, and its node is `n`. -/
def Refers (k : Kernel) (f n : Nat) : Prop :=
  Installed k f ∧ ∃ x, k.file f = some x ∧ x.node = some n

/-- Open files point at live nodes. -/
def OpenFilesLive (k : Kernel) : Prop := ∀ f n, Refers k f n → k.vfs.node n ≠ none

/-- No call removes a node that is open. -/
def NodesSpared (k : Kernel) : FdEvent → Prop
  | .path _ call => ∀ n, call.removes k.vfs = some n → ∀ f, ¬Refers k f n
  | _ => True

/-- A node that is open is there, and a synthetic one is open once. -/
def Live (k : Kernel) : Prop :=
  ∀ f n, Refers k f n → ∃ m, k.vfs.node n = some m ∧
    (m.synth = true → n = rootAddr ∨ ∀ g, Refers k g n → g = f)

structure NodeInv (k : Kernel) : Prop where
  covered : Covered (slotsOf k.tasks) k.fd fun f => (k.file f).map File.refCount
  live : Live k

section Moves

variable {k k' : Kernel} {t f : Nat} {i : Fin maxFds} {x : File} {held : Held}

theorem installed_iff : Installed k f ↔ 0 < holders (slotsOf k.tasks) k.fd f := by
  rw [holders_pos]
  constructor
  · rintro ⟨t, ht, i, hf⟩
    exact ⟨(t, i), mem_slotsOf.mpr ht, hf⟩
  · rintro ⟨⟨t, i⟩, hs, hf⟩
    exact ⟨t, mem_slotsOf.mp hs, i, hf⟩

/-- A file that is not there is not installed. -/
theorem NodeInv.not_installed (h : NodeInv k) (hf : k.file f = none) : ¬Installed k f := by
  rw [installed_iff, h.covered.not_held (by rw [hf]; rfl)]
  exact Nat.lt_irrefl 0

/-- The counter of a file is at least the number of its slots. -/
theorem NodeInv.uses_le (h : NodeInv k) (hf : Installed k f) (hx : k.file f = some x) :
    (holders (slotsOf k.tasks) k.fd f : Int) ≤ x.refCount := by
  obtain ⟨c, hc, hle⟩ := h.covered f (installed_iff.mp hf)
  dsimp only at hc
  rw [hx, Option.map_some, Option.some.injEq] at hc
  exact hc ▸ hle

/-- No more is open than before, and the nodes of it have stayed. -/
theorem Live.mono (h : Live k) (hrefers : ∀ f n, Refers k' f n → Refers k f n)
    (hsame : ∀ f n, Refers k' f n → SameNode k.vfs k'.vfs n) : Live k' := by
  intro f n hf
  obtain ⟨m, hm, hsynth⟩ := h f n (hrefers f n hf)
  have hnode := hsame f n hf
  unfold SameNode at hnode
  rw [hm, Option.map_some, Option.map_eq_some_iff] at hnode
  obtain ⟨m', hm', heq⟩ := hnode
  refine ⟨m', hm', fun hs => ?_⟩
  exact (hsynth (heq ▸ hs)).imp_right fun honly g hg => honly g (hrefers g n hg)

/-- The same when the file system is untouched. -/
theorem Live.of_refers (h : Live k) (hvfs : k'.vfs = k.vfs)
    (hrefers : ∀ f n, Refers k' f n → Refers k f n) : Live k' :=
  h.mono hrefers fun _ _ _ => .of_eq (by rw [hvfs])

theorem NodeInv.same (h : NodeInv k) (htasks : k'.tasks = k.tasks) (hfd : k'.fd = k.fd)
    (hfile : ∀ f, (k'.file f).map File.core = (k.file f).map File.core) (hvfs : k'.vfs = k.vfs) :
    NodeInv k' := by
  have hcount : (fun f => (k'.file f).map File.refCount) = fun f => (k.file f).map File.refCount := by
    funext f
    have hf := congrArg (Option.map Prod.fst) (hfile f)
    simpa only [Option.map_map, Function.comp_def, File.core] using hf
  refine ⟨by rw [hcount, htasks, hfd]; exact h.covered, h.live.of_refers hvfs ?_⟩
  rintro f n ⟨hinst, y, hy, hn⟩
  unfold Installed at hinst
  rw [htasks, hfd] at hinst
  have hcore := hfile f
  rw [hy, Option.map_some, eq_comm, Option.map_eq_some_iff] at hcore
  obtain ⟨x, hx, heq⟩ := hcore
  exact ⟨hinst, x, hx, (Prod.mk.inj (Prod.mk.inj heq).2).1.trans hn⟩

/-- A slot takes hold of a file that is installed. -/
theorem NodeInv.hold (h : NodeInv k) (hnodup : k.tasks.Nodup) (ht : t ∈ k.tasks)
    (hfd : k.fd (t, i) = none) (hx : k.file f = some x) (hf : Installed k f) :
    NodeInv ((k.setFd t i (some f)).setFile f { x with refCount := x.refCount + 1 }) := by
  refine ⟨?_, h.live.of_refers rfl ?_⟩
  · rw [setFile_file, counts_update]
    exact h.covered.retain (nodup_slotsOf hnodup) (mem_slotsOf.mpr ht) hfd (h.uses_le hf hx)
  · rintro g n ⟨⟨s, hs, j, hj⟩, y, hy, hn⟩
    have hg : Installed k g := by
      have hj : Function.update k.fd (t, i) (some f) (s, j) = some g := hj
      by_cases hsj : (s, j) = (t, i)
      · rw [hsj, Function.update_self, Option.some.injEq] at hj
        exact hj ▸ hf
      · rw [Function.update_of_ne hsj] at hj
        exact ⟨s, hs, j, hj⟩
    rcases file_update hy with ⟨rfl, hyx⟩ | ⟨_, hy⟩
    · cases hyx
      exact ⟨hg, x, hx, hn⟩
    · exact ⟨hg, y, hy, hn⟩

/-- A new file gets a slot. -/
theorem NodeInv.make (h : NodeInv k) (hnodup : k.tasks.Nodup) (ht : t ∈ k.tasks)
    (hfd : k.fd (t, i) = none) (hf : Fresh k f) (hone : x.refCount = 1)
    (hopen : ∀ n, x.node = some n → Openable k n) :
    NodeInv ((k.putFile f held x).setFd t i (some f)) := by
  refine ⟨?_, ?_⟩
  · have hzero : holders (slotsOf k.tasks) k.fd f = 0 := h.covered.not_held (by rw [hf.file]; rfl)
    have hret := h.covered.retain (nodup_slotsOf hnodup) (mem_slotsOf.mpr ht) hfd (o := f) (k := 0)
      (by rw [hzero]; exact Int.le_refl 0)
    have hfile : ((k.putFile f held x).setFd t i (some f)).file = Function.update k.file f (some x) :=
      rfl
    rw [hfile, counts_update, Option.map_some, hone]
    exact hret
  -- what is open is the new file, or was open
  have hrefers {g n : Nat} (hg : Refers ((k.putFile f held x).setFd t i (some f)) g n) :
      g = f ∧ x.node = some n ∨ g ≠ f ∧ Refers k g n := by
    obtain ⟨⟨s, hs, j, hj⟩, y, hy, hn⟩ := hg
    rcases file_update hy with ⟨rfl, hyx⟩ | ⟨hgf, hy⟩
    · cases hyx
      exact .inl ⟨rfl, hn⟩
    · have hj : Function.update k.fd (t, i) (some f) (s, j) = some g := hj
      by_cases hsj : (s, j) = (t, i)
      · rw [hsj, Function.update_self, Option.some.injEq] at hj
        exact absurd hj.symm hgf
      · rw [Function.update_of_ne hsj] at hj
        exact .inr ⟨hgf, ⟨s, hs, j, hj⟩, y, hy, hn⟩
  intro g n hg
  rcases hrefers hg with ⟨rfl, hn⟩ | ⟨_, hg⟩
  · obtain ⟨m, hm, hsynth⟩ := hopen n hn
    refine ⟨m, hm, fun hs => (hsynth hs).imp_right fun hnone g' hg' => ?_⟩
    rcases hrefers hg' with ⟨hgf, _⟩ | ⟨_, _, y, hy, hyn⟩
    · exact hgf
    · exact absurd hyn (hnone g' y hy)
  · obtain ⟨m, hm, hsynth⟩ := h.live g n hg
    refine ⟨m, hm, fun hs => ?_⟩
    rcases hsynth hs with hroot | honly
    · exact .inl hroot
    by_cases hxn : x.node = some n
    · -- the new file is on a node that was open, which is then no synthetic one
      obtain ⟨m', hm', hs'⟩ := hopen n hxn
      have heq : m = m' := Option.some.inj (hm.symm.trans hm')
      obtain ⟨_, y, hy, hyn⟩ := hg
      exact (hs' (heq ▸ hs)).imp_right fun hnone => absurd hyn (hnone g y hy)
    · refine .inr fun g' hg' => ?_
      rcases hrefers hg' with ⟨_, hn⟩ | ⟨_, hg'⟩
      · exact absurd hn hxn
      · exact honly g' hg'

/-- A slot lets go of its file. -/
theorem NodeInv.drop (h : NodeInv k) (hnodup : k.tasks.Nodup) (ht : t ∈ k.tasks)
    (hk : Dropped k t i k') : NodeInv k' := by
  have hslots := nodup_slotsOf hnodup
  have hslot : (t, i) ∈ slotsOf k.tasks := mem_slotsOf.mpr ht
  have hinstalled {g : Nat} (hg : ∃ s ∈ k.tasks, ∃ j, Function.update k.fd (t, i) none (s, j) = some g) :
      Installed k g := by
    obtain ⟨s, hs, j, hj⟩ := hg
    by_cases hsj : (s, j) = (t, i)
    · rw [hsj, Function.update_self] at hj
      cases hj
    · rw [Function.update_of_ne hsj] at hj
      exact ⟨s, hs, j, hj⟩
  cases hk with
  | empty => exact h
  | @more f x hf hx hmore =>
      have hcount := h.covered.release hslots hslot hf (k := x.refCount) (by rw [hx]; rfl)
      rw [if_neg hmore] at hcount
      refine ⟨?_, h.live.of_refers rfl ?_⟩
      · show Covered (slotsOf k.tasks) (Function.update k.fd (t, i) none) fun g =>
          (Function.update k.file f (some { x with refCount := x.refCount - 1 }) g).map File.refCount
        rw [counts_update]
        exact hcount
      · rintro g n ⟨hg, y, hy, hn⟩
        rcases file_update hy with ⟨rfl, hyx⟩ | ⟨_, hy⟩
        · cases hyx
          exact ⟨hinstalled hg, x, hx, hn⟩
        · exact ⟨hinstalled hg, y, hy, hn⟩
  | @last f x k₁ hf hx hlast hk₁ =>
      have hcount := h.covered.release hslots hslot hf (k := x.refCount) (by rw [hx]; rfl)
      rw [if_pos hlast] at hcount
      have hrefers (g n : Nat) (hg : Refers (k₁.setFd t i none) g n) : g ≠ f ∧ Refers k g n := by
        obtain ⟨hg, y, hy, hn⟩ := hg
        have hy : k₁.file g = some y := hy
        rw [hk₁.file] at hy
        rcases file_update hy with ⟨_, hno⟩ | ⟨hgf, hy⟩
        · cases hno
        · unfold Installed at hg
          rw [setFd_fd, hk₁.fd] at hg
          exact ⟨hgf, hinstalled (hk₁.tasks ▸ hg), y, hy, hn⟩
      refine ⟨?_, h.live.mono (fun g n hg => (hrefers g n hg).2) fun g n hg => ?_⟩
      · show Covered (slotsOf k₁.tasks) (Function.update k₁.fd (t, i) none) fun g =>
          (k₁.file g).map File.refCount
        rw [hk₁.tasks, hk₁.fd, hk₁.file, counts_update]
        exact hcount
      · obtain ⟨hgf, hg⟩ := hrefers g n hg
        rcases hk₁.vfs with hv | ⟨a, ret, ha, hv⟩
        · exact .of_eq (by rw [show (k₁.setFd t i none).vfs = k₁.vfs from rfl, hv])
        · -- a node with another file open on it is not a synthetic one
          refine SameNode.vfsClose hv ?_
          by_cases hna : n = a
          · subst hna
            obtain ⟨m, hm, hsynth⟩ := h.live g n hg
            cases hreal : m.synth with
            | false => exact .inr (.inr ⟨m, hm, hreal⟩)
            | true =>
                rcases hsynth hreal with hroot | honly
                · exact .inr (.inl hroot)
                · exact absurd (honly f ⟨⟨t, ht, i, hf⟩, x, hx, ha⟩).symm hgf
          · exact .inl hna

/-- Every move that spares the open nodes keeps them. -/
theorem NodeInv.step {e : FdEvent} {s s' : Kernel} {m : Move} (h : NodeInv s) (hbase : Base s)
    (hspared : NodesSpared k e) (ha : Allowed k e s m) (hs : MoveStep s m s') : NodeInv s' := by
  cases hs with
  | same htasks hfd hfile hvfs _ _ => exact h.same htasks hfd hfile hvfs
  | vfs _ =>
      refine ⟨h.covered, h.live.mono (fun f n hf => hf) fun f n hf => ?_⟩
      obtain ⟨x, hx, hn⟩ := hf.2
      rcases ha with hkeeps | ⟨t, call, a, rfl, rfl, hremoves, hsame⟩
      · exact hkeeps f x n hx hn
      · refine hsame n ((hbase.file f x hx).2 n hn) ?_
        rintro rfl
        exact hspared n hremoves f hf
  | hold ht hfd hx => exact h.hold hbase.nodup ht hfd hx ha
  | make ht hfd hf hone => exact h.make hbase.nodup ht hfd hf hone ha.1
  | @discard f held x hf =>
      have hfile : ((s.putFile f held x).freeFile f held).file = s.file := by
        rw [freeFile_file, putFile_file, Function.update_idem, ← hf.file, Function.update_eq_self]
      exact h.same rfl rfl (fun g => by rw [hfile]) rfl
  | @forget f held x hf =>
      have hnew (g : Nat) (hg : Installed s g) : Function.update s.file f (some x) g = s.file g := by
        refine Function.update_of_ne ?_ _ _
        rintro rfl
        exact h.not_installed hf.file hg
      refine ⟨fun g hg => ?_, h.live.of_refers rfl ?_⟩
      · obtain ⟨c, hc, hle⟩ := h.covered g hg
        refine ⟨c, ?_, hle⟩
        dsimp only
        rw [putFile_file, hnew g (installed_iff.mpr hg)]
        exact hc
      · rintro g n ⟨hg, y, hy, hn⟩
        rw [putFile_file, hnew g hg] at hy
        exact ⟨hg, y, hy, hn⟩
  | drop ht hk => exact h.drop hbase.nodup ht (releaseFd_dropped _ hk)
  | @enter c o hc _ =>
      refine ⟨h.covered.mono fun f => Nat.le_of_eq (holders_addOwner hc o f),
        h.live.of_refers rfl ?_⟩
      rintro f n ⟨hf, hx⟩
      refine ⟨?_, hx⟩
      rw [installed_iff, holders_addOwner hc o f] at hf
      exact installed_iff.mpr hf
  | @leave c _ =>
      have hsub : (slotsOf (s.tasks.erase c)).Sublist (slotsOf s.tasks) :=
        (List.erase_sublist).flatMap _
      refine ⟨h.covered.mono fun f => hsub.countP_le, h.live.of_refers rfl ?_⟩
      rintro f n ⟨⟨t, ht, hf⟩, hx⟩
      exact ⟨⟨t, List.mem_of_mem_erase ht, hf⟩, hx⟩

theorem NodeInv.boot (h : KernelBoot k) : NodeInv k := by
  refine ⟨fun f hf => ?_, ?_⟩
  · rw [h.tasks] at hf
    cases hf
  · rintro f n ⟨⟨t, ht, _⟩, _⟩
    rw [h.tasks] at ht
    cases ht

end Moves

/-- In every run in which no call removes a node that is open, every open file
points at a live node. -/
theorem open_files_live_while_spared {k : Kernel} (h : fdSystem.ReachVia NodesSpared k) :
    OpenFilesLive k := by
  have hinv := (reachVia_moves (fun _ => NodeInv.boot) (fun k e s m s' hspared hbase hi ha hs =>
    hi.step hbase hspared ha hs) h).2
  intro f n hf hnone
  obtain ⟨m, hm, _⟩ := hinv.live f n hf
  rw [hnone] at hm
  cases hm

/-- A file that is open under another name than it was opened with. -/
theorem open_file_renamed : ∃ k, fdSystem.ReachVia NodesSpared k ∧ Refers k 6 5 ∧
    OpenFilesLive k := by
  obtain ⟨k, hrun, htasks, hfd, hfile⟩ : ∃ k, runAll quietKernel
      [.spawn fun _ => .null, .openPath 1 rootCaller (str "/f") 64 .null,
        .path 1 (.rename rootCaller (str "/f") (str "/g"))] = .ret k ∧ k.tasks = [1] ∧
      k.fd (1, 3) = some 6 ∧ (k.file 6).map File.node = some (some 5) := ⟨_, rfl, rfl, rfl, rfl⟩
  have hreach : fdSystem.ReachVia NodesSpared k := by
    refine reach_runAll (.init quietKernel_boot) ?_ hrun
    simp [NodesSpared, VfsCall.removes]
  obtain ⟨x, hx, hn⟩ := Option.map_eq_some_iff.mp hfile
  refine ⟨k, hreach, ⟨⟨1, ?_, 3, hfd⟩, x, hx, hn⟩, open_files_live_while_spared hreach⟩
  rw [htasks]
  exact List.mem_cons_self

/-- A file is opened and its name removed: the descriptor is left with a node
that was freed. -/
theorem unlink_frees_open_node : ¬∀ k, fdSystem.Reach k → OpenFilesLive k := by
  intro hall
  obtain ⟨k, hrun, htasks, hfd, hfile, hnode⟩ : ∃ k, runAll quietKernel
      [.spawn fun _ => .null, .openPath 1 rootCaller (str "/f") 64 .null,
        .path 1 (.unlink rootCaller (str "/f"))] = .ret k ∧ k.tasks = [1] ∧
      k.fd (1, 3) = some 6 ∧ (k.file 6).map File.node = some (some 5) ∧ k.vfs.node 5 = none :=
    ⟨_, rfl, rfl, rfl, rfl, rfl⟩
  have hlive := hall k (reach_runAll (.init quietKernel_boot) (fun _ _ _ => trivial) hrun)
  obtain ⟨x, hx, hn⟩ := Option.map_eq_some_iff.mp hfile
  refine hlive 6 5 ⟨⟨1, ?_, 3, hfd⟩, x, hx, hn⟩ hnode
  rw [htasks]
  exact List.mem_cons_self

end LiteBSD.Files
