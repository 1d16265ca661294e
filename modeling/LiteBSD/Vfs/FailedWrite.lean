/-
# `LiteBSD.Vfs.FailedWrite` — what a write that fails leaves behind

`data_cow` gives up the node's share of a blob before it asks for the memory
of the copy, and before the checks and the allocation that follow it.  A
failure after that point leaves the counter of the blob one too low:

    not a file, or a device              nothing has been done
    the blob has one holder              `data_cow` does nothing
    the blob has more than one holder    its counter has lost one

so that a failed call leaves the blobs as they were if the blob is not
shared, and only then (`failed_write_consistent_iff`).
-/
import LiteBSD.Vfs.Growth

namespace LiteBSD

open Lib

/-- Every node has the data, the size, the capacity and the counter it had,
and every counter in use has its value. -/
def SameBlobs (v v' : Vfs) : Prop :=
  (∀ x, (v'.node x).map Node.toBlob = (v.node x).map Node.toBlob) ∧
    ∀ x n c, v.node x = some n → n.dataRefs = some c → v'.cell c = v.cell c

section Failures

variable {v v' : Vfs} {a : Nat} {n : Node}

theorem SameBlobs.of_eq (hnode : v'.node = v.node) (hcell : v'.cell = v.cell) : SameBlobs v v' :=
  ⟨fun x => by rw [hnode], fun _ _ c _ _ => congrFun hcell c⟩

/-- The cells and nodes are those that `data_cow` leaves. -/
def BehindCow (v v' : Vfs) (a : Nat) : Prop :=
  ∃ w ret, dataCow v a = .ret (w, ret) ∧ v'.node = w.node ∧ v'.cell = w.cell

/-- What `data_cow` leaves is what there was, if no blob is given up. -/
theorem BehindCow.sameBlobs_iff (hfresh : ∀ c, v.nextObj ≤ c → v.cell c = none) (hn : v.node a = some n)
    (h : BehindCow v v' a) : SameBlobs v v' ↔ ∀ c k, ¬v.Shared n c k := by
  obtain ⟨w, ret, hw, hnode, hcell⟩ := h
  rcases dataCow_cases hn hw with ⟨hsole, _, rfl⟩ | ⟨c, k, hshared, hcases⟩
  · exact ⟨fun _ => hsole, fun _ => .of_eq hnode hcell⟩
  · have hlost : v'.cell c = some (k - 1) := by
      rcases hcases with ⟨_, _, hcow⟩ | ⟨_, data, c', hc', _, hcow⟩
      · rw [hcell, hcow, Function.update_self]
      · have hne : c ≠ c' := by
          rintro rfl
          exact absurd (hshared.2.1.symm.trans (hfresh c hc')) nofun
        rw [hcell, hcow, Function.update_of_ne hne, Function.update_self]
    refine ⟨fun hsame => ?_, fun hsole => absurd hshared (hsole c k)⟩
    have hkept := hsame.2 a n c hn hshared.1
    rw [hlost, hshared.2.1, Option.some.injEq] at hkept
    omega

/-- A write behind the copy fails before it has changed anything more. -/
theorem writeData_failed {offset : Nat} {buffer : List UInt8} (h : AllRoomy v) (hn : v.node a = some n)
    (hg : Growable n) (hoffset : offset < 4294967296) (hlen : buffer.length < 4294967296)
    (hw : writeData v a offset buffer = .ret (v', -1)) : BehindCow v v' a := by
  obtain ⟨⟨w, r₁⟩, h₁, hw⟩ := Exec.bind_eq_ret.mp hw
  dsimp only at hw
  split at hw
  · cases hw
    exact ⟨_, r₁, h₁, rfl, rfl⟩
  · rename_i hzero
    obtain rfl : r₁ = 0 := not_not.mp hzero
    rw [dataCow_again hn h₁, Exec.ret_bind] at hw
    dsimp only at hw
    rw [if_neg (not_not.mpr rfl)] at hw
    split at hw
    · cases hw
      exact ⟨_, 0, h₁, rfl, rfl⟩
    · rename_i hnowrap
      obtain ⟨⟨u, r₂⟩, h₂, hw⟩ := Exec.bind_eq_ret.mp hw
      obtain ⟨n', hn', hroomy, hg'⟩ := dataCow_roomy h hn hg h₁
      dsimp only at hw
      split at hw
      · rename_i hfail
        cases hw
        rcases growData_cases hn' h₂ with ⟨_, hret, _⟩ | ⟨_, hcell, ⟨_, hnode⟩ | ⟨hret, _⟩⟩
        · exact absurd hret hfail
        · exact ⟨w, 0, h₁, hnode, hcell⟩
        · exact absurd hret hfail
      · -- the bytes are there, and so many of them are not `-1`
        obtain ⟨m, _, hw⟩ := Exec.bind_eq_ret.mp hw
        obtain ⟨x, _, hw⟩ := Exec.bind_eq_ret.mp hw
        have hret : int32 buffer.length = -1 := (Prod.mk.inj (Exec.ret.inj hw)).2
        have hends : u32 (offset + buffer.length) ≤ 2147483648 := by
          by_contra hgt
          have hhang := (growData_hang_iff hn' hroomy hg').mpr (Nat.lt_of_not_le hgt)
          exact absurd (hhang.symm.trans h₂) nofun
        unfold int32 at hret
        unfold u32 at hends hnowrap
        split at hret <;> omega

theorem vfsTruncate_failed {length : Nat} (hn : v.node a = some n) (hg : Growable n)
    (ht : vfsTruncate v a length = .ret (v', -1)) : BehindCow v v' a := by
  have hkind : ¬(n.dirBit ∨ isSymlinkNode n) := by
    rw [hg.file, hg.text]
    exact not_or.mpr ⟨Bool.false_ne_true, Bool.false_ne_true⟩
  unfold vfsTruncate at ht
  rw [Vfs.load_live hn, Exec.ret_bind, if_neg hkind, if_neg (ne_true_of_eq_false hg.real)] at ht
  obtain ⟨⟨w, r₁⟩, h₁, ht⟩ := Exec.bind_eq_ret.mp ht
  dsimp only at ht
  split at ht
  · cases ht
    exact ⟨_, r₁, h₁, rfl, rfl⟩
  · obtain ⟨n', hn', ht⟩ := Exec.bind_eq_ret.mp ht
    replace hn' := Vfs.load_ret hn'
    split at ht
    · cases ht
    · split at ht
      · cases ht
      · obtain ⟨⟨u, r₂⟩, h₂, ht⟩ := Exec.bind_eq_ret.mp ht
        dsimp only at ht
        split at ht
        · rename_i hfail
          cases ht
          rcases growData_cases hn' h₂ with ⟨_, hret, _⟩ | ⟨_, hcell, ⟨_, hnode⟩ | ⟨hret, _⟩⟩
          · exact absurd hret hfail
          · exact ⟨w, r₁, h₁, hnode, hcell⟩
          · exact absurd hret hfail
        · obtain ⟨m, _, ht⟩ := Exec.bind_eq_ret.mp ht
          obtain ⟨x, _, ht⟩ := Exec.bind_eq_ret.mp ht
          cases ht

/-- A write that stops before the copy has changed no node. -/
theorem vfsWrite_rejected {offset : Nat} {buffer : List UInt8} {ret : Int} (hn : v.node a = some n)
    (hno : ¬(Growable n ∧ ¬devicePath n.path)) (hw : vfsWrite v a offset buffer = .ret (v', ret)) : SameBlobs v v' := by
  unfold vfsWrite at hw
  rw [Vfs.load_live hn, Exec.ret_bind] at hw
  repeat' split at hw
  all_goals first
    | cases hw; exact .of_eq rfl rfl
    | skip
  rename_i hdir hlink hsynth hnull hzero hfb
  refine absurd ⟨?_, ?_⟩ hno
  · exact ⟨eq_false_of_ne_true hdir, eq_false_of_ne_true hlink, eq_false_of_ne_true hsynth⟩
  · exact not_or.mpr ⟨hnull, not_or.mpr ⟨hzero, hfb⟩⟩

theorem vfsTruncate_rejected {length : Nat} {ret : Int} (hn : v.node a = some n) (hno : ¬Growable n)
    (ht : vfsTruncate v a length = .ret (v', ret)) : SameBlobs v v' := by
  unfold vfsTruncate at ht
  rw [Vfs.load_live hn, Exec.ret_bind] at ht
  split at ht
  · cases ht
    exact .of_eq rfl rfl
  · split at ht
    · cases ht
      exact .of_eq rfl rfl
    · rename_i hkind hsynth
      obtain ⟨hdir, hlink⟩ := not_or.mp hkind
      exact absurd ⟨eq_false_of_ne_true hdir, eq_false_of_ne_true hlink, eq_false_of_ne_true hsynth⟩ hno

end Failures

/-- A call that fails leaves the blobs alone, unless it got as far as to give
up a blob that is shared. -/
theorem failed_write_consistent_iff {v v' : Vfs} {a : Nat} {n : Node} (hr : vfsSystem.Reach v) (hn : v.node a = some n) :
    (∀ offset buffer, offset < 4294967296 → buffer.length < 4294967296 →
      vfsWrite v a offset buffer = .ret (v', -1) →
      (SameBlobs v v' ↔ ¬(Growable n ∧ ¬devicePath n.path ∧ ∃ c k, v.Shared n c k))) ∧
    ∀ length, vfsTruncate v a length = .ret (v', -1) →
      (SameBlobs v v' ↔ ¬(Growable n ∧ ∃ c k, v.Shared n c k)) := by
  have hfresh : ∀ c, v.nextObj ≤ c → v.cell c = none := fun c hc => ((Settled.of_reach hr).fresh c hc).2
  refine ⟨fun offset buffer hoffset hlen hw => ?_, fun length ht => ?_⟩
  · by_cases hreg : Growable n ∧ ¬devicePath n.path
    · rw [vfsWrite_eq_writeData hn hreg.1 hreg.2] at hw
      rw [(writeData_failed (AllRoomy.of_reach hr) hn hreg.1 hoffset hlen hw).sameBlobs_iff hfresh hn]
      exact ⟨fun hsole ⟨_, _, c, k, hs⟩ => hsole c k hs, fun hno c k hs => hno ⟨hreg.1, hreg.2, c, k, hs⟩⟩
    · have hsame := vfsWrite_rejected hn hreg hw
      exact ⟨fun _ ⟨hg, hdev, _⟩ => hreg ⟨hg, hdev⟩, fun _ => hsame⟩
  · by_cases hg : Growable n
    · rw [(vfsTruncate_failed hn hg ht).sameBlobs_iff hfresh hn]
      exact ⟨fun hsole ⟨_, c, k, hs⟩ => hsole c k hs, fun hno c k hs => hno ⟨hg, c, k, hs⟩⟩
    · have hsame := vfsTruncate_rejected hn hg ht
      exact ⟨fun _ ⟨hg', _⟩ => hg hg', fun _ => hsame⟩

/-- Memory that has no block at the `k`-th request. -/
def memoryWithout (k : Nat) : Oracle := ⟨fun i => if i = k then .null else .block, fun _ _ => 0xAA⟩

/-- The calls that make `/a`, write a byte to it, and link it as `/b`. -/
def linkedFile : List VfsCall :=
  [.openPath rootCaller (str "/a") 0x40, .write 1 0 [1], .link rootCaller (str "/b") (str "/a")]

theorem sole_write_consistent : ∃ v v', vfsCalls (emptyVfs (memoryWithout 2) none)
    [.openPath rootCaller (str "/a") 0x40] = .ret v ∧ vfsWrite v 1 0 [1] = .ret (v', -1) ∧ SameBlobs v v' := by
  have hr : ∃ v v' n, vfsCalls (emptyVfs (memoryWithout 2) none) [.openPath rootCaller (str "/a") 0x40] = .ret v ∧
      vfsWrite v 1 0 [1] = .ret (v', -1) ∧ v.node 1 = some n ∧ n.dataRefs = none :=
    ⟨_, _, _, rfl, rfl, rfl, rfl⟩
  obtain ⟨v, v', n, hv, hw, hn, hrefs⟩ := hr
  have hreach := reach_vfsCalls (S := vfsSystem) id (.init ⟨memoryWithout 2, none, rfl⟩) _ hv
  have hsole : ¬(Growable n ∧ ¬devicePath n.path ∧ ∃ c k, v.Shared n c k) :=
    fun ⟨_, _, c, k, hs⟩ => Option.some_ne_none c (hs.1.symm.trans hrefs)
  exact ⟨v, v', hv, hw, ((failed_write_consistent_iff hreach hn).1 0 [1] (by decide) (by decide) hw).mpr hsole⟩

/-- No memory for the copy of `/a`: the counter of the blob of `/b` is one
too low, and the name that is removed first takes the blob along. -/
theorem shared_write_loses_holder : ¬∀ v a v', vfsSystem.Reach v → ∀ offset buffer, offset < 4294967296 →
    buffer.length < 4294967296 → vfsWrite v a offset buffer = .ret (v', -1) → SameBlobs v v' := by
  intro hall
  have hr : ∃ v v', vfsCalls (emptyVfs (memoryWithout 5) none) linkedFile = .ret v ∧
      vfsWrite v 1 0 [2] = .ret (v', -1) ∧ v.cell 4 = some 2 ∧ v'.cell 4 = some 1 ∧
      ∃ n, v.node 1 = some n ∧ n.dataRefs = some 4 :=
    ⟨_, _, rfl, rfl, rfl, rfl, _, rfl, rfl⟩
  obtain ⟨v, v', hv, hw, hold, hnew, n, hn, hrefs⟩ := hr
  have hreach := reach_vfsCalls (S := vfsSystem) id (.init ⟨memoryWithout 5, none, rfl⟩) linkedFile hv
  have hkept := (hall v 1 v' hreach 0 [2] (by decide) (by decide) hw).2 1 n 4 hn hrefs
  exact absurd (hnew.symm.trans (hkept.trans hold)) (by decide)

end LiteBSD
