/-
# `LiteBSD.Vfs.Growth` — the doubling of a file's buffer

`vfs_write` and `vfs_truncate` double the capacity of a node until what is
required fits.  The word they double is 32 bits wide, and every capacity of a
regular node is `0` or `256 * 2^k` (`Roomy`), so that the last value before
the word becomes `0` is `2^31`:

    required ≤ 2^31     the doubling ends, with room for what is required
    required > 2^31     `0` is doubled for ever

Nothing on the way to the loops bounds the offset or the length, and
`vfsWrite_hang_iff` and `vfsTruncate_hang_iff` say the same of the calls.
-/
import LiteBSD.Vfs.Supply
import Mathlib.Algebra.GroupWithZero.Nat

namespace LiteBSD

open Lib

/-! ## The loop -/

section Loop

variable {fuel capacity required : Nat}

theorem u32_mul_two_pow (capacity i : Nat) : u32 (u32 (capacity * 2) * 2 ^ i) = u32 (capacity * 2 ^ (i + 1)) := by
  unfold u32
  rw [Nat.mod_mul_mod, Nat.pow_succ', Nat.mul_assoc]

/-- The loop is still running after so many rounds if no value so far had
room for what is required. -/
theorem growLoop_eq_none_iff (hword : capacity < 4294967296) :
    growLoop fuel capacity required = none ↔ ∀ i < fuel, u32 (capacity * 2 ^ i) < required := by
  induction fuel generalizing capacity with
  | zero => exact ⟨fun _ _ hi => absurd hi (Nat.not_lt_zero _), fun _ => rfl⟩
  | succ fuel ih =>
      have hzero : u32 (capacity * 2 ^ 0) = capacity := by
        rw [Nat.pow_zero, Nat.mul_one, u32_of_lt hword]
      rw [growLoop]
      split
      · rename_i hlt
        have hnext : u32 (capacity * 2) < 4294967296 := Nat.mod_lt _ (by decide)
        rw [ih hnext]
        constructor
        · intro h i hi
          cases i with
          | zero => rwa [hzero]
          | succ i => exact u32_mul_two_pow capacity i ▸ h i (Nat.lt_of_succ_lt_succ hi)
        · intro h i hi
          rw [u32_mul_two_pow]
          exact h (i + 1) (Nat.succ_lt_succ hi)
      · rename_i hge
        refine ⟨fun h => absurd h (Option.some_ne_none _), fun h => ?_⟩
        exact absurd (hzero ▸ h 0 (Nat.succ_pos _)) hge

/-- A loop that runs for 33 rounds runs for ever: the word is `0` by then. -/
theorem growLoop_none (hword : capacity < 4294967296) (h : growLoop 33 capacity required = none) (fuel : Nat) :
    growLoop fuel capacity required = none := by
  rw [growLoop_eq_none_iff hword] at h ⊢
  intro i _
  by_cases hi : i < 33
  · exact h i hi
  · have hzero : ∀ j, u32 (capacity * 2 ^ (32 + j)) = 0 := by
      intro j
      rw [Nat.pow_add, Nat.mul_left_comm]
      exact Nat.mul_mod_right _ _
    have hlast := h 32 (by decide)
    rw [hzero 0] at hlast
    obtain ⟨j, rfl⟩ := Nat.exists_eq_add_of_le (Nat.le_of_succ_le (Nat.le_of_not_lt hi))
    rw [hzero j]
    exact hlast

end Loop

/-- The value the doubling starts from. -/
def startCapacity (n : Node) : Nat := if n.capacity ≠ 0 then n.capacity else 256

/-- Giving the node `n` room for `required` bytes comes to an end, with the
room that is required: there is no loop to run, or the loop ends. -/
def GrowthEnds (n : Node) (required : Nat) : Prop :=
  required ≤ n.capacity ∨ ∃ fuel k, growLoop fuel (startCapacity n) required = some k ∧ required ≤ k

/-! ## The capacities there are -/

/-- `0`, or a value the doubling passes on its way from 256. -/
def Doubled (capacity : Nat) : Prop := capacity = 0 ∨ ∃ k ≤ 23, capacity = 256 * 2 ^ k

/-- A node whose data `vfs_write` and `vfs_truncate` may change. -/
structure Growable (n : Node) : Prop where
  file : n.dirBit = false
  text : isSymlinkNode n = false
  real : n.synth = false

/-- The data fits the buffer; and a file has one of the capacities that the
doubling gives. -/
structure Roomy (n : Node) : Prop where
  size : n.size ≤ n.capacity
  doubled : n.synth = false → isSymlinkNode n = false → Doubled n.capacity

section Capacities

variable {capacity required : Nat} {n : Node}

theorem Doubled.word (h : Doubled capacity) : capacity < 4294967296 := by
  rcases h with rfl | ⟨k, hk, rfl⟩
  · decide
  · have hpow : 2 ^ k ≤ 2 ^ 23 := Nat.pow_le_pow_right (by decide) hk
    omega

theorem Doubled.twice (h : Doubled capacity) : Doubled (u32 (capacity * 2)) := by
  rcases h with rfl | ⟨k, hk, rfl⟩
  · exact .inl rfl
  · have hpow : 256 * 2 ^ k * 2 = 256 * 2 ^ (k + 1) := by rw [Nat.pow_succ, Nat.mul_assoc]
    rw [hpow]
    rcases Nat.eq_or_lt_of_le hk with rfl | hlt
    · exact .inl rfl
    · have hle : 2 ^ (k + 1) ≤ 2 ^ 23 := Nat.pow_le_pow_right (by decide) hlt
      exact .inr ⟨k + 1, hlt, u32_of_lt (by omega)⟩

theorem Doubled.of_growLoop {fuel k : Nat} (h : Doubled capacity) (hgrow : growLoop fuel capacity required = some k) :
    Doubled k := by
  induction fuel generalizing capacity with
  | zero => cases hgrow
  | succ fuel ih =>
      rw [growLoop] at hgrow
      split at hgrow
      · exact ih h.twice hgrow
      · cases hgrow
        exact h

theorem Roomy.start (h : Roomy n) (hn : Growable n) : ∃ k ≤ 23, startCapacity n = 256 * 2 ^ k := by
  unfold startCapacity
  rcases h.doubled hn.real hn.text with hzero | ⟨k, hk, he⟩
  · rw [if_neg (not_not.mpr hzero)]
    exact ⟨0, by decide, rfl⟩
  · have hpos : 0 < 2 ^ k := Nat.two_pow_pos k
    rw [if_pos (by omega)]
    exact ⟨k, hk, he⟩

/-- Room for half of the address space can be made, and for no more. -/
theorem Roomy.growthEnds_iff (h : Roomy n) (hn : Growable n) : GrowthEnds n required ↔ required ≤ 2147483648 := by
  obtain ⟨k, hk, hstart⟩ := h.start hn
  have hpow : ∀ i, 256 * 2 ^ k * 2 ^ i = 2 ^ (8 + k + i) := fun i => by rw [Nat.pow_add, Nat.pow_add]
  have hword : startCapacity n < 4294967296 := Doubled.word (.inr ⟨k, hk, hstart⟩)
  constructor
  · rintro (hroom | ⟨fuel, c, hgrow, hle⟩)
    · rcases h.doubled hn.real hn.text with hzero | ⟨j, hj, he⟩
      · rw [hzero] at hroom
        exact Nat.le_trans hroom (Nat.zero_le _)
      · have hmax : 2 ^ j ≤ 2 ^ 23 := Nat.pow_le_pow_right (by decide) hj
        omega
    · rcases Doubled.of_growLoop (.inr ⟨k, hk, hstart⟩) hgrow with rfl | ⟨j, hj, rfl⟩
      · exact Nat.le_trans hle (Nat.zero_le _)
      · have hmax : 2 ^ j ≤ 2 ^ 23 := Nat.pow_le_pow_right (by decide) hj
        omega
  · intro hle
    -- the round that reaches 2^31 is there, unless the loop ended before
    cases hgrow : growLoop 33 (startCapacity n) required with
    | some c => exact .inr ⟨33, c, hgrow, le_of_growLoop hgrow⟩
    | none =>
        have hlast := (growLoop_eq_none_iff hword).mp hgrow (23 - k) (by omega)
        rw [hstart, hpow, Nat.add_assoc, Nat.add_sub_cancel' hk] at hlast
        exact absurd hlast (Nat.not_lt.mpr hle)

end Capacities

/-! ## The two steps before the data is changed -/

section Moves

variable {v v' : Vfs} {a : Nat} {n : Node} {ret : Int}

theorem Vfs.kmallocBuf_kept {size : Nat} {p : Option Nat} (h : v.kmallocBuf size = .ret (v', p)) :
    v'.node = v.node ∧ v'.cell = v.cell := by
  rcases Vfs.kmallocBuf_ret h with ⟨_, hu⟩ | ⟨_, rfl⟩
  · exact ⟨hu.node, hu.cell⟩
  · exact ⟨rfl, rfl⟩

theorem Vfs.copyBytes_kept {dst k : Nat} {data : Option Nat} (h : v.copyBytes dst data k = .ret v') :
    v'.node = v.node ∧ v'.cell = v.cell := by
  rcases Vfs.copyBytes_ret h with ⟨_, rfl⟩ | ⟨b, src, m, _, _, _, _, _, rfl⟩
  · exact ⟨rfl, rfl⟩
  · exact ⟨rfl, rfl⟩

theorem Vfs.freeBuf_kept (v : Vfs) (data : Option Nat) : (v.freeBuf data).node = v.node ∧ (v.freeBuf data).cell = v.cell := by
  cases data with
  | none => exact ⟨rfl, rfl⟩
  | some b => exact ⟨rfl, rfl⟩

theorem Vfs.storeBytes_node {data : Option Nat} {offset : Nat} {src : List UInt8}
    (h : v.storeBytes data offset src = .ret v') : v'.node = v.node := by
  rcases Vfs.storeBytes_ret h with ⟨_, rfl⟩ | ⟨b, m, _, _, _, rfl⟩
  · rfl
  · rfl

theorem Vfs.zeroBytes_node {data : Option Nat} {first last : Nat} (h : v.zeroBytes data first last = .ret v') :
    v'.node = v.node := by
  unfold Vfs.zeroBytes at h
  split at h
  · cases h
    rfl
  · cases data with
    | none => cases h
    | some b =>
        obtain ⟨m, _, h⟩ := Exec.bind_eq_ret.mp h
        split at h
        · cases h
          rfl
        · cases h

theorem cowCopy_kept {copied : Option (Option Nat)} (h : cowCopy v n = .ret (v', copied)) :
    v'.node = v.node ∧ v'.cell = v.cell := by
  unfold cowCopy at h
  split at h
  · obtain ⟨⟨w, p⟩, hw, h⟩ := Exec.bind_eq_ret.mp h
    obtain ⟨hnode, hcell⟩ := Vfs.kmallocBuf_kept hw
    cases p with
    | none =>
        cases h
        exact ⟨hnode, hcell⟩
    | some b =>
        obtain ⟨u, hu, h⟩ := Exec.bind_eq_ret.mp h
        cases h
        obtain ⟨hnode', hcell'⟩ := Vfs.copyBytes_kept hu
        exact ⟨hnode'.trans hnode, hcell'.trans hcell⟩
  · cases h
    exact ⟨rfl, rfl⟩

theorem SameNames.live (h : SameNames v v') (hn : v.node a = some n) :
    ∃ n', v'.node a = some n' ∧ n'.toLabel = n.toLabel := by
  have hl := congrFun h.label a
  rw [Vfs.label, Vfs.label, hn, Option.map_some] at hl
  exact Option.map_eq_some_iff.mp hl

theorem Growable.of_label {n' : Node} (h : Growable n) (hl : n'.toLabel = n.toLabel) : Growable n' := by
  have hmode : n'.mode = n.mode := congrArg Label.mode hl
  have hsynth : n'.synth = n.synth := congrArg Label.synth hl
  obtain ⟨hfile, htext, hreal⟩ := h
  unfold Node.dirBit at hfile
  unfold isSymlinkNode at htext
  rw [← hmode] at hfile htext
  exact ⟨hfile, htext, hsynth.trans hreal⟩

/-- Does another node hold the blob of `n` too? -/
def Vfs.Shared (v : Vfs) (n : Node) (c : Nat) (k : Int) : Prop :=
  n.dataRefs = some c ∧ v.cell c = some k ∧ 1 < k

/-- `data_cow` leaves a blob alone that is not shared.  A shared one loses a
holder, whether the copy is made or not. -/
theorem dataCow_cases (hn : v.node a = some n) (h : dataCow v a = .ret (v', ret)) :
    ((∀ c k, ¬v.Shared n c k) ∧ ret = 0 ∧ v' = v) ∨
      ∃ c k, v.Shared n c k ∧
        (ret = -1 ∧ v'.node = v.node ∧ v'.cell = Function.update v.cell c (some (k - 1)) ∨
          ret = 0 ∧ ∃ data c', v.nextObj ≤ c' ∧
            v'.node = Function.update v.node a (some { n with data := data, dataRefs := some c' }) ∧
            v'.cell = Function.update (Function.update v.cell c (some (k - 1))) c' (some 1)) := by
  obtain ⟨m, hm, h⟩ := Exec.bind_eq_ret.mp h
  obtain rfl : n = m := Option.some.inj (hn.symm.trans (Vfs.load_ret hm))
  split at h
  · rename_i hrefs
    cases h
    exact .inl ⟨fun c k hs => absurd (hrefs.symm.trans hs.1) nofun, rfl, rfl⟩
  · rename_i c hc
    obtain ⟨k, hk, h⟩ := Exec.bind_eq_ret.mp h
    replace hk := Vfs.loadCell_ret hk
    split at h
    · rename_i hle
      cases h
      refine .inl ⟨fun c' k' hs => ?_, rfl, rfl⟩
      obtain rfl : c = c' := Option.some.inj (hc.symm.trans hs.1)
      obtain rfl : k = k' := Option.some.inj (hk.symm.trans hs.2.1)
      exact absurd hs.2.2 (Int.not_lt.mpr hle)
    · rename_i hgt
      refine .inr ⟨c, k, ⟨hc, hk, Int.not_le.mp hgt⟩, ?_⟩
      obtain ⟨⟨w, copied⟩, hw, h⟩ := Exec.bind_eq_ret.mp h
      obtain ⟨hnode, hcell⟩ := cowCopy_kept hw
      have hsup : v.nextObj ≤ w.nextObj := (Stocked.of_cowCopy hw).supply
      cases copied with
      | none =>
          cases h
          exact .inl ⟨rfl, hnode, hcell⟩
      | some data =>
          obtain ⟨⟨u, p⟩, hu, h⟩ := Exec.bind_eq_ret.mp h
          have hut := Untouched.kmalloc hu
          cases p with
          | none =>
              cases h
              obtain ⟨hnode', hcell'⟩ := Vfs.freeBuf_kept u data
              exact .inl ⟨rfl, (hnode'.trans hut.node).trans hnode, (hcell'.trans hut.cell).trans hcell⟩
          | some c' =>
              cases h
              obtain ⟨rfl, _⟩ := (Vfs.kmalloc_ret hu).2 c' rfl
              refine .inr ⟨rfl, data, w.nextObj, hsup, ?_, ?_⟩
              · exact congrArg (fun f => Function.update f a _) (hut.node.trans hnode)
              · exact congrArg (fun f => Function.update f w.nextObj (some 1)) (hut.cell.trans hcell)

/-- The growth of a buffer: there is room, there is no memory, or the node
gets a buffer of the capacity the loop ends with. -/
theorem growData_cases {required : Nat} (hn : v.node a = some n) (h : growData v a required = .ret (v', ret)) :
    (required ≤ n.capacity ∧ ret = 0 ∧ v' = v) ∨
      n.capacity < required ∧ v'.cell = v.cell ∧
        (ret = -1 ∧ v'.node = v.node ∨
          ret = 0 ∧ ∃ b k, growLoop 33 (startCapacity n) required = some k ∧
            v'.node = Function.update v.node a (some { n with data := some b, capacity := k })) := by
  obtain ⟨m, hm, h⟩ := Exec.bind_eq_ret.mp h
  obtain rfl : n = m := Option.some.inj (hn.symm.trans (Vfs.load_ret hm))
  split at h
  · rename_i hgt
    refine .inr ⟨hgt, ?_⟩
    split at h
    · cases h
    · rename_i k hk
      obtain ⟨⟨w, p⟩, hw, h⟩ := Exec.bind_eq_ret.mp h
      obtain ⟨hnode, hcell⟩ := Vfs.kmallocBuf_kept hw
      cases p with
      | none =>
          cases h
          exact ⟨hcell, .inl ⟨rfl, hnode⟩⟩
      | some b =>
          obtain ⟨u, hu, h⟩ := Exec.bind_eq_ret.mp h
          cases h
          obtain ⟨hnode', hcell'⟩ := Vfs.copyBytes_kept hu
          obtain ⟨hnode'', hcell''⟩ := Vfs.freeBuf_kept u n.data
          refine ⟨(hcell''.trans hcell').trans hcell, .inr ⟨rfl, b, k, hk, ?_⟩⟩
          exact congrArg (fun f => Function.update f a _) ((hnode''.trans hnode').trans hnode)
  · rename_i hle
    cases h
    exact .inl ⟨Nat.le_of_not_lt hle, rfl, rfl⟩

end Moves

/-! ## Every node that is reached -/

def AllRoomy (v : Vfs) : Prop := ∀ a n, v.node a = some n → Roomy n

namespace AllRoomy

variable {v v' : Vfs} {a : Nat} {n : Node}

theorem of_node (h : AllRoomy v) (hnode : v'.node = v.node) : AllRoomy v' :=
  fun a n hn => h a n (hnode ▸ hn)

theorem setNode (h : AllRoomy v) (hn : Roomy n) : AllRoomy (v.setNode a n) := by
  intro x m hm
  by_cases hx : x = a
  · subst hx
    rw [Vfs.node_setNode_self, Option.some.injEq] at hm
    exact hm ▸ hn
  · rw [Vfs.node_setNode_ne hx] at hm
    exact h x m hm

theorem drop (h : AllRoomy v) (hnode : v'.node = Function.update v.node a none) : AllRoomy v' := by
  intro x m hm
  rw [hnode] at hm
  by_cases hx : x = a
  · rw [hx, Function.update_self] at hm
    cases hm
  · rw [Function.update_of_ne hx] at hm
    exact h x m hm

theorem linkIn (h : AllRoomy v) (hn : Roomy n) : AllRoomy (linkIn v a n) :=
  fun x m hm => (h.setNode (a := a) (n := { n with ino := v.nextIno }) ⟨hn.size, hn.doubled⟩) x m hm

theorem of_dataCow {ret : Int} (h : AllRoomy v) (hc : dataCow v a = .ret (v', ret)) : AllRoomy v' := by
  obtain ⟨n, hn, -⟩ := Exec.bind_eq_ret.mp hc
  have hn := Vfs.load_ret hn
  rcases dataCow_cases hn hc with ⟨_, _, rfl⟩ | ⟨c, k, _, ⟨_, hnode, _⟩ | ⟨_, data, c', _, hnode, _⟩⟩
  · exact h
  · exact h.of_node hnode
  · have hset := h.setNode (a := a) (n := { n with data := data, dataRefs := some c' }) ⟨(h a n hn).size, (h a n hn).doubled⟩
    exact hset.of_node hnode

/-- The growth of a file leaves room in the buffer. -/
theorem of_growData {required : Nat} {ret : Int} (h : AllRoomy v) (hn : v.node a = some n) (hg : Growable n)
    (hgrow : growData v a required = .ret (v', ret)) :
    AllRoomy v' ∧ (ret = 0 → ∃ n', v'.node a = some n' ∧ required ≤ n'.capacity) := by
  rcases growData_cases hn hgrow with ⟨hle, _, rfl⟩ | ⟨hlt, _, ⟨rfl, hnode⟩ | ⟨_, b, k, hk, hnode⟩⟩
  · exact ⟨h, fun _ => ⟨n, hn, hle⟩⟩
  · exact ⟨h.of_node hnode, nofun⟩
  · have hle := le_of_growLoop hk
    have hsize := Nat.le_trans (Nat.le_of_lt (Nat.lt_of_le_of_lt (h a n hn).size hlt)) hle
    obtain ⟨j, hj, hstart⟩ := (h a n hn).start hg
    have hroomy : Roomy { n with data := some b, capacity := k } :=
      ⟨hsize, fun _ _ => Doubled.of_growLoop (.inr ⟨j, hj, hstart⟩) hk⟩
    refine ⟨(h.setNode (a := a) hroomy).of_node hnode, fun _ => ⟨{ n with data := some b, capacity := k }, ?_, hle⟩⟩
    rw [hnode, Function.update_self]

/-- A size the buffer has room for. -/
theorem setSize {size : Nat} (h : AllRoomy v) (hn : v.node a = some n) (hle : size ≤ n.capacity) :
    AllRoomy (v.setNode a { n with size := size }) :=
  h.setNode ⟨hle, (h a n hn).doubled⟩

theorem of_writeData {offset : Nat} {buffer : List UInt8} {ret : Int} (h : AllRoomy v) (hn : v.node a = some n)
    (hg : Growable n) (hw : writeData v a offset buffer = .ret (v', ret)) : AllRoomy v' := by
  obtain ⟨⟨v₁, r₁⟩, h₁, hw⟩ := Exec.bind_eq_ret.mp hw
  have hr₁ := h.of_dataCow h₁
  dsimp only at hw
  split at hw
  · cases hw
    exact hr₁
  · obtain ⟨⟨v₂, r₂⟩, h₂, hw⟩ := Exec.bind_eq_ret.mp hw
    have hr₂ := hr₁.of_dataCow h₂
    dsimp only at hw
    split at hw
    · cases hw
      exact hr₂
    · split at hw
      · cases hw
        exact hr₂
      · obtain ⟨⟨v₃, r₃⟩, h₃, hw⟩ := Exec.bind_eq_ret.mp hw
        obtain ⟨n₂, hn₂, hl⟩ := ((SameNames.of_dataCow h₁).trans (.of_dataCow h₂)).live hn
        obtain ⟨hr₃, hroom⟩ := hr₂.of_growData hn₂ (hg.of_label hl) h₃
        dsimp only at hw
        split at hw
        · cases hw
          exact hr₃
        · rename_i hret
          obtain ⟨n₃, hn₃, hle⟩ := hroom (not_not.mp hret)
          obtain ⟨n', hn', hw⟩ := Exec.bind_eq_ret.mp hw
          obtain rfl : n₃ = n' := Option.some.inj (hn₃.symm.trans (Vfs.load_ret hn'))
          obtain ⟨v₄, h₄, hw⟩ := Exec.bind_eq_ret.mp hw
          have hnode := Vfs.storeBytes_node h₄
          have hr₄ := hr₃.of_node hnode
          cases hw
          split
          · exact hr₄.setSize (hnode ▸ hn₃) hle
          · exact hr₄

theorem of_vfsWrite {offset : Nat} {buffer : List UInt8} {ret : Int} (h : AllRoomy v)
    (hw : vfsWrite v a offset buffer = .ret (v', ret)) : AllRoomy v' := by
  obtain ⟨n, hn, hw⟩ := Exec.bind_eq_ret.mp hw
  replace hn := Vfs.load_ret hn
  split at hw
  · cases hw
    exact h
  · split at hw
    · cases hw
      exact h
    · split at hw
      · cases hw
        exact h
      · rename_i hdir hlink hsynth
        have hg : Growable n := ⟨eq_false_of_ne_true hdir, eq_false_of_ne_true hlink, eq_false_of_ne_true hsynth⟩
        repeat' split at hw
        all_goals first
          | exact h.of_writeData hn hg hw
          | cases hw; exact h.of_node rfl

theorem of_vfsTruncate {length : Nat} {ret : Int} (h : AllRoomy v) (ht : vfsTruncate v a length = .ret (v', ret)) :
    AllRoomy v' := by
  obtain ⟨n, hn, ht⟩ := Exec.bind_eq_ret.mp ht
  replace hn := Vfs.load_ret hn
  split at ht
  · cases ht
    exact h
  · split at ht
    · cases ht
      exact h
    · rename_i hkind hsynth
      obtain ⟨hdir, hlink⟩ := not_or.mp hkind
      have hg : Growable n := ⟨eq_false_of_ne_true hdir, eq_false_of_ne_true hlink, eq_false_of_ne_true hsynth⟩
      obtain ⟨⟨v₁, r₁⟩, h₁, ht⟩ := Exec.bind_eq_ret.mp ht
      have hr₁ := h.of_dataCow h₁
      dsimp only at ht
      split at ht
      · cases ht
        exact hr₁
      · obtain ⟨n₁, hn₁, ht⟩ := Exec.bind_eq_ret.mp ht
        replace hn₁ := Vfs.load_ret hn₁
        split at ht
        · rename_i hlt
          cases ht
          exact hr₁.setSize hn₁ (Nat.le_trans (Nat.le_of_lt hlt) (hr₁ a n₁ hn₁).size)
        · split at ht
          · cases ht
            exact hr₁
          · obtain ⟨⟨v₂, r₂⟩, h₂, ht⟩ := Exec.bind_eq_ret.mp ht
            obtain ⟨m, hm, hl⟩ := (SameNames.of_dataCow h₁).live hn
            obtain ⟨hr₂, hroom⟩ := hr₁.of_growData hm (hg.of_label hl) h₂
            dsimp only at ht
            split at ht
            · cases ht
              exact hr₂
            · rename_i hret
              obtain ⟨n₂, hn₂, hle⟩ := hroom (not_not.mp hret)
              obtain ⟨n', hn', ht⟩ := Exec.bind_eq_ret.mp ht
              obtain rfl : n₂ = n' := Option.some.inj (hn₂.symm.trans (Vfs.load_ret hn'))
              obtain ⟨v₃, h₃, ht⟩ := Exec.bind_eq_ret.mp ht
              have hnode := Vfs.zeroBytes_node h₃
              cases ht
              exact (hr₂.of_node hnode).setSize (hnode ▸ hn₂) hle

/-- A node with no data has room for it. -/
theorem fresh (resolved : CStr) (mode : Nat) : Roomy (freshNode resolved mode) :=
  ⟨Nat.le_refl _, fun _ _ => .inl rfl⟩

theorem of_synthOpen {resolved : CStr} {sid : SynthId} {c : Caller} {p : Option Nat} (h : AllRoomy v)
    (hs : synthOpen v c resolved sid = .ret (v', p)) : AllRoomy v' := by
  unfold synthOpen at hs
  split at hs
  · cases hs
    exact h
  · rename_i content _
    obtain ⟨⟨w, q⟩, hw, hs⟩ := Exec.bind_eq_ret.mp hs
    have hrw := h.of_node (Untouched.kmalloc hw).node
    cases q with
    | none =>
        cases hs
        exact hrw
    | some a =>
        obtain ⟨⟨u, data⟩, hu, hs⟩ := Exec.bind_eq_ret.mp hs
        have hru := hrw.of_node (Vfs.kmallocBuf_kept hu).1
        dsimp only at hs
        split at hs
        · cases hs
          exact hru
        · obtain ⟨x, hx, hs⟩ := Exec.bind_eq_ret.mp hs
          cases hs
          exact (hru.of_node (Vfs.storeBytes_node hx)).setNode ⟨Nat.le_refl _, nofun⟩

theorem of_vfsOpen {c : Caller} {path : CStr} {flags : Nat} {p : Option Nat} (h : AllRoomy v)
    (ho : vfsOpen v c path flags = .ret (v', p)) : AllRoomy v' := by
  unfold vfsOpen at ho
  dsimp only at ho
  split at ho
  · split at ho
    · cases ho
      exact h
    · exact h.of_synthOpen ho
  · split at ho
    · obtain ⟨target, _, ho⟩ := Exec.bind_eq_ret.mp ho
      split at ho
      · cases ho
        exact h
      · obtain ⟨n, hn, ho⟩ := Exec.bind_eq_ret.mp ho
        have hroomy := h _ n (Vfs.load_ret hn)
        cases ho
        exact h.setNode ⟨hroomy.size, hroomy.doubled⟩
    · split at ho
      · unfold openCreate at ho
        split at ho
        · obtain ⟨⟨w, q⟩, hw, ho⟩ := Exec.bind_eq_ret.mp ho
          have hrw := h.of_node (Untouched.kmalloc hw).node
          cases q with
          | none =>
              cases ho
              exact hrw
          | some a =>
              cases ho
              exact hrw.linkIn (fresh _ _)
        · cases ho
          exact h
      · cases ho
        exact h

theorem of_vfsMkdir {c : Caller} {path : CStr} {ret : Int} (h : AllRoomy v)
    (hm : vfsMkdir v c path = .ret (v', ret)) : AllRoomy v' := by
  unfold vfsMkdir at hm
  dsimp only at hm
  split at hm
  · cases hm
    exact h
  · split at hm
    · cases hm
      exact h
    · split at hm
      · cases hm
        exact h
      · obtain ⟨⟨w, q⟩, hw, hm⟩ := Exec.bind_eq_ret.mp hm
        have hrw := h.of_node (Untouched.kmalloc hw).node
        cases q with
        | none =>
            cases hm
            exact hrw
        | some a =>
            cases hm
            exact hrw.linkIn (fresh _ _)

theorem isSymlinkNode_of_mode (h : n.mode = sIflnk) : isSymlinkNode n = true := by
  rw [isSymlinkNode, h]
  rfl

theorem of_symlinkNode {resolved target : CStr} {ret : Int} (h : AllRoomy v)
    (hs : symlinkNode v resolved target = .ret (v', ret)) : AllRoomy v' := by
  obtain ⟨⟨w, q⟩, hw, hs⟩ := Exec.bind_eq_ret.mp hs
  have hrw := h.of_node (Untouched.kmalloc hw).node
  cases q with
  | none =>
      cases hs
      exact hrw
  | some a =>
      obtain ⟨⟨u, data⟩, hu, hs⟩ := Exec.bind_eq_ret.mp hs
      have hru := hrw.of_node (Vfs.kmallocBuf_kept hu).1
      cases data with
      | none =>
          cases hs
          exact hru
      | some b =>
          obtain ⟨x, hx, hs⟩ := Exec.bind_eq_ret.mp hs
          cases hs
          refine (hru.of_node (Vfs.storeBytes_node hx)).linkIn ⟨Nat.le_succ _, fun _ htext => ?_⟩
          exact Bool.noConfusion ((isSymlinkNode_of_mode rfl).symm.trans htext)

theorem of_vfsSymlink {c : Caller} {target linkpath : CStr} {ret : Int} (h : AllRoomy v)
    (hs : vfsSymlink v c target linkpath = .ret (v', ret)) : AllRoomy v' := by
  unfold vfsSymlink at hs
  dsimp only at hs
  repeat' split at hs
  all_goals first
    | exact h.of_symlinkNode hs
    | cases hs; exact h

/-- A new name is of the kind and the capacity of its target. -/
theorem of_linkNode {resolved : CStr} {target : Nat} {t : Node} {ret : Int} (h : AllRoomy v)
    (hfresh : ∀ a, v.nextObj ≤ a → v.node a = none) (ht : v.node target = some t) (hreal : t.synth = false)
    (hdir : t.dirBit = false) (hl : linkNode v resolved target = .ret (v', ret)) : AllRoomy v' := by
  obtain ⟨t', ht', hl⟩ := Exec.bind_eq_ret.mp hl
  obtain rfl : t = t' := Option.some.inj (ht.symm.trans (Vfs.load_ret ht'))
  obtain ⟨⟨w, p⟩, hw, hl⟩ := Exec.bind_eq_ret.mp hl
  have hu := Untouched.kmalloc hw
  have hrw := h.of_node hu.node
  cases p with
  | none =>
      cases hl
      exact hrw
  | some a =>
      obtain ⟨rfl, _⟩ := (Vfs.kmalloc_ret hw).2 a rfl
      have hne : target ≠ v.nextObj := by
        rintro rfl
        rw [hfresh _ (Nat.le_refl _)] at ht
        cases ht
      obtain ⟨⟨x, r⟩, hx, hl⟩ := Exec.bind_eq_ret.mp hl
      -- the state with the new node, which has no data yet
      generalize hstart : Vfs.mk _ _ _ _ _ _ _ _ = start at hx
      have hnode : start.node = Function.update w.node v.nextObj (some { freshNode resolved t.mode with ino := w.nextIno }) :=
        hstart ▸ rfl
      have hnew : AllRoomy start :=
        (hrw.setNode (a := v.nextObj) (n := { freshNode resolved t.mode with ino := w.nextIno })
          ⟨Nat.le_refl _, fun _ _ => .inl rfl⟩).of_node hnode
      have hself : start.node v.nextObj = some { freshNode resolved t.mode with ino := w.nextIno } := by
        rw [hnode, Function.update_self]
      have htw : start.node target = some t := by
        rw [hnode, Function.update_of_ne hne, hu.node, ht]
      have hroomy := h target t ht
      have hrx : AllRoomy x := by
        rcases dataShare_ret hne hself htw hdir hx with ⟨_, hu'⟩ | ⟨k, _, hnode', -⟩
        · exact hnew.of_node hu'.node
        · have hset := (hnew.setNode (a := target) (n := { t with dataRefs := some k }) ⟨hroomy.size, hroomy.doubled⟩).setNode
            (a := v.nextObj) (n := { freshNode resolved t.mode with
              ino := w.nextIno, data := t.data, size := t.size, capacity := t.capacity, dataRefs := some k })
            ⟨hroomy.size, fun _ htext => hroomy.doubled hreal htext⟩
          exact hset.of_node hnode'
      dsimp only at hl
      split at hl
      · cases hl
        exact hrx.drop rfl
      · cases hl
        exact hrx.of_node rfl

theorem of_vfsLink {c : Caller} {path targetPath : CStr} {ret : Int} (h : AllRoomy v) (htable : NodeTable v)
    (hl : vfsLink v c path targetPath = .ret (v', ret)) : AllRoomy v' := by
  unfold vfsLink at hl
  dsimp only at hl
  split at hl
  · cases hl
    exact h
  · split at hl
    · cases hl
      exact h
    · split at hl
      · cases hl
        exact h
      · rename_i target htarget
        obtain ⟨t, ht, hl⟩ := Exec.bind_eq_ret.mp hl
        replace ht := Vfs.load_ret ht
        split at hl
        · cases hl
          exact h
        · rename_i hdir
          have hreal : t.synth = false := by
            rcases findNode_listed htarget with hroot | hmem
            · obtain ⟨r, hr, hrdir⟩ := htable.root
              rw [hroot, hr, Option.some.injEq] at ht
              exact absurd (ht ▸ hrdir) hdir
            · obtain ⟨m, hm, hsynth⟩ := htable.listed target hmem
              rw [hm, Option.some.injEq] at ht
              exact ht ▸ hsynth
          split at hl
          · cases hl
            exact h
          · split at hl
            · cases hl
              exact h
            · exact h.of_linkNode htable.fresh ht hreal (eq_false_of_ne_true hdir) hl

theorem of_unlinkNode (h : AllRoomy v) (hu : unlinkNode v a = .ret v') : AllRoomy v' := by
  obtain ⟨n, hu⟩ := unlinkNode_ret hu
  exact h.drop hu.node

theorem step {call : VfsCall} (h : AllRoomy v) (htable : NodeTable v) (hs : vfsCall v call = .ret v') :
    AllRoomy v' := by
  cases call with
  | openPath c path flags =>
      obtain ⟨⟨w, p⟩, hw, hs⟩ := Exec.bind_eq_ret.mp hs
      cases hs
      exact h.of_vfsOpen hw
  | close a =>
      obtain ⟨⟨w, r⟩, hw, hs⟩ := Exec.bind_eq_ret.mp hs
      cases hs
      obtain ⟨n, hn, ⟨k, rfl⟩ | ⟨_, _, _, _, hnode, -⟩⟩ := vfsClose_ret hw
      · have hroomy := h a n hn
        exact h.setNode ⟨hroomy.size, hroomy.doubled⟩
      · exact h.drop hnode
  | write a offset buffer =>
      obtain ⟨⟨w, r⟩, hw, hs⟩ := Exec.bind_eq_ret.mp hs
      cases hs
      exact h.of_vfsWrite hw
  | truncate a length =>
      obtain ⟨⟨w, r⟩, hw, hs⟩ := Exec.bind_eq_ret.mp hs
      cases hs
      exact h.of_vfsTruncate hw
  | unlink c path =>
      obtain ⟨⟨w, r⟩, hw, hs⟩ := Exec.bind_eq_ret.mp hs
      cases hs
      rcases vfsUnlink_effect hw with ⟨_, rfl⟩ | ⟨a, _, hu⟩
      · exact h
      · exact h.of_unlinkNode hu
  | mkdir c path =>
      obtain ⟨⟨w, r⟩, hw, hs⟩ := Exec.bind_eq_ret.mp hs
      cases hs
      exact h.of_vfsMkdir hw
  | link c path targetPath =>
      obtain ⟨⟨w, r⟩, hw, hs⟩ := Exec.bind_eq_ret.mp hs
      cases hs
      exact h.of_vfsLink htable hw
  | symlink c target linkpath =>
      obtain ⟨⟨w, r⟩, hw, hs⟩ := Exec.bind_eq_ret.mp hs
      cases hs
      exact h.of_vfsSymlink hw
  | rename c oldpath newpath =>
      obtain ⟨⟨w, r⟩, hw, hs⟩ := Exec.bind_eq_ret.mp hs
      cases hs
      rcases vfsRename_effect hw with ⟨_, rfl⟩ | ⟨a, _, hr⟩
      · exact h
      · obtain ⟨n, _, rfl⟩ := renameNode_ret hr
        intro x m hm
        obtain ⟨m', hm', rfl⟩ := Option.map_eq_some_iff.mp hm
        exact ⟨(h x m' hm').size, (h x m' hm').doubled⟩
  | rmdir c path =>
      obtain ⟨⟨w, r⟩, hw, hs⟩ := Exec.bind_eq_ret.mp hs
      cases hs
      rcases vfsRmdir_effect hw with rfl | ⟨a, _, hu⟩
      · exact h
      · exact h.of_unlinkNode hu

theorem of_reach (h : vfsSystem.Reach v) : AllRoomy v := by
  suffices hboth : NodeTable v ∧ AllRoomy v from hboth.2
  refine System.ReachVia.invariant (I := fun v => NodeTable v ∧ AllRoomy v) (fun v hb => ⟨NodeTable.of_boot hb, ?_⟩)
    (fun v call v' hi _ hs => ⟨hi.1.step hs, hi.2.step hi.1 hs⟩) h
  obtain ⟨mem, fb, rfl⟩ := hb
  intro a n hn
  by_cases ha : a = rootAddr
  · subst ha
    obtain rfl : rootNode = n := Option.some.inj hn
    exact ⟨Nat.le_refl _, fun _ _ => .inl rfl⟩
  · exact absurd hn (by simp [emptyVfs, ha])

end AllRoomy

section Calls

variable {v v' : Vfs} {a : Nat} {n : Node}

theorem Vfs.load_live (hn : v.node a = some n) : v.load a = .ret n := by
  rw [Vfs.load, hn]

/-- The primitives have no loops. -/
theorem Vfs.kmalloc_ends (v : Vfs) (size : Nat) : v.kmalloc size ≠ .hang := by
  unfold Vfs.kmalloc
  repeat' split
  all_goals exact nofun

theorem Vfs.kmallocBuf_ends (v : Vfs) (size : Nat) : v.kmallocBuf size ≠ .hang := by
  refine Exec.bind_ends (v.kmalloc_ends size) fun r _ => ?_
  dsimp only
  split
  · exact nofun
  · exact nofun

theorem Vfs.load_ends (v : Vfs) (a : Nat) : v.load a ≠ .hang := by
  unfold Vfs.load
  split
  · exact nofun
  · exact nofun

theorem Vfs.loadBuf_ends (v : Vfs) (b : Nat) : v.loadBuf b ≠ .hang := by
  unfold Vfs.loadBuf
  split
  · exact nofun
  · exact nofun

theorem Vfs.copyBytes_ends (v : Vfs) (dst k : Nat) (data : Option Nat) : v.copyBytes dst data k ≠ .hang := by
  unfold Vfs.copyBytes
  split
  · exact nofun
  · cases data with
    | none => exact nofun
    | some b =>
        refine Exec.bind_ends (v.loadBuf_ends b) fun src _ => ?_
        refine Exec.bind_ends (v.loadBuf_ends dst) fun m _ => ?_
        split
        · exact nofun
        · exact nofun

theorem Vfs.storeBytes_ends (v : Vfs) (data : Option Nat) (offset : Nat) (src : List UInt8) :
    v.storeBytes data offset src ≠ .hang := by
  unfold Vfs.storeBytes
  split
  · exact nofun
  · cases data with
    | none => exact nofun
    | some b =>
        refine Exec.bind_ends (v.loadBuf_ends b) fun m _ => ?_
        split
        · exact nofun
        · exact nofun

theorem Vfs.zeroBytes_ends (v : Vfs) (data : Option Nat) (first last : Nat) : v.zeroBytes data first last ≠ .hang := by
  unfold Vfs.zeroBytes
  split
  · exact nofun
  · cases data with
    | none => exact nofun
    | some b =>
        refine Exec.bind_ends (v.loadBuf_ends b) fun m _ => ?_
        split
        · exact nofun
        · exact nofun

/-- The growth hangs if it does not end, and only then. -/
theorem growData_hang_iff {required : Nat} (hn : v.node a = some n) (hroomy : Roomy n) (hg : Growable n) :
    growData v a required = .hang ↔ 2147483648 < required := by
  rw [← Nat.not_le, ← hroomy.growthEnds_iff hg]
  unfold growData
  rw [Vfs.load_live hn, Exec.ret_bind]
  split
  · rename_i hgt
    split
    · rename_i hnone
      obtain ⟨k, hk, hstart⟩ := hroomy.start hg
      have hword : startCapacity n < 4294967296 := Doubled.word (.inr ⟨k, hk, hstart⟩)
      refine ⟨fun _ => ?_, fun _ => rfl⟩
      rintro (hle | ⟨fuel, c, hc, _⟩)
      · exact absurd hle (Nat.not_le.mpr hgt)
      · exact absurd (hc.symm.trans (growLoop_none hword hnone fuel)) nofun
    · rename_i k hk
      have hends : GrowthEnds n required := .inr ⟨33, k, hk, le_of_growLoop hk⟩
      refine ⟨fun h => absurd h ?_, fun h => absurd hends h⟩
      refine Exec.bind_ends (v.kmallocBuf_ends k) fun r _ => ?_
      dsimp only
      split
      · exact nofun
      · exact Exec.bind_ends (Vfs.copyBytes_ends _ _ _ _) fun u _ => nofun
  · rename_i hle
    exact ⟨nofun, fun h => absurd (.inl (Nat.le_of_not_lt hle)) h⟩

/-- The copy that a shared blob needs first is made, or none is needed. -/
def CopyMade (v : Vfs) (a : Nat) : Prop := ∃ w, dataCow v a = .ret (w, 0)

/-- A blob of one holder is left alone. -/
theorem dataCow_again {w : Vfs} (hn : v.node a = some n) (h : dataCow v a = .ret (w, 0)) :
    dataCow w a = .ret (w, 0) := by
  rcases dataCow_cases hn h with ⟨_, _, rfl⟩ | ⟨c, k, _, ⟨hret, _⟩ | ⟨_, data, c', _, hnode, hcell⟩⟩
  · exact h
  · exact absurd hret (by decide)
  · have hn' : w.node a = some { n with data := data, dataRefs := some c' } := by
      rw [hnode, Function.update_self]
    have hc' : w.loadCell c' = .ret 1 := by
      rw [Vfs.loadCell, hcell, Function.update_self]
    unfold dataCow
    rw [Vfs.load_live hn', Exec.ret_bind]
    dsimp only
    rw [hc', Exec.ret_bind, if_pos (Int.le_refl 1)]

/-- The node behind the copy. -/
theorem dataCow_roomy {w : Vfs} {ret : Int} (h : AllRoomy v) (hn : v.node a = some n) (hg : Growable n)
    (hc : dataCow v a = .ret (w, ret)) : ∃ n', w.node a = some n' ∧ Roomy n' ∧ Growable n' := by
  obtain ⟨n', hn', hl⟩ := (SameNames.of_dataCow hc).live hn
  exact ⟨n', hn', h.of_dataCow hc a n' hn', hg.of_label hl⟩

theorem writeData_hang_iff {offset : Nat} {buffer : List UInt8} (h : AllRoomy v) (hn : v.node a = some n)
    (hg : Growable n) (hcopy : CopyMade v a) (hroom : offset + buffer.length < 4294967296) :
    writeData v a offset buffer = .hang ↔ 2147483648 < offset + buffer.length := by
  obtain ⟨w, hw⟩ := hcopy
  obtain ⟨n', hn', hroomy, hg'⟩ := dataCow_roomy h hn hg hw
  unfold writeData
  rw [hw, Exec.ret_bind]
  dsimp only
  rw [if_neg (not_not.mpr rfl), dataCow_again hn hw, Exec.ret_bind]
  dsimp only
  rw [if_neg (not_not.mpr rfl), u32_of_lt hroom, if_neg (Nat.not_lt.mpr (Nat.le_add_right _ _)),
    Exec.bind_eq_hang, growData_hang_iff hn' hroomy hg']
  rintro ⟨u, r⟩ hr
  dsimp only
  split
  · exact nofun
  · refine Exec.bind_ends ?_ fun m _ => Exec.bind_ends (Vfs.storeBytes_ends _ _ _ _) fun x _ => nofun
    exact Vfs.load_ends _ _

/-- The paths that `vfs_write` handles without a buffer. -/
def devicePath (path : CStr) : Prop := path = devNull ∨ path = devZero ∨ path = devFb0

theorem vfsWrite_eq_writeData {offset : Nat} {buffer : List UInt8} (hn : v.node a = some n) (hg : Growable n)
    (hdev : ¬devicePath n.path) : vfsWrite v a offset buffer = writeData v a offset buffer := by
  obtain ⟨hnull, hzero, hfb⟩ := not_or.mp hdev |>.imp_right not_or.mp
  unfold vfsWrite
  rw [Vfs.load_live hn, Exec.ret_bind, hg.file, hg.text, hg.real]
  dsimp only
  rw [if_neg Bool.false_ne_true, if_neg Bool.false_ne_true, if_neg Bool.false_ne_true, if_neg hnull, if_neg hzero,
    if_neg hfb]

theorem vfsWrite_hang_iff {offset : Nat} {buffer : List UInt8} (h : AllRoomy v) (hn : v.node a = some n)
    (hg : Growable n) (hdev : ¬devicePath n.path) (hcopy : CopyMade v a) (hroom : offset + buffer.length < 4294967296) :
    vfsWrite v a offset buffer = .hang ↔ 2147483648 < offset + buffer.length := by
  rw [vfsWrite_eq_writeData hn hg hdev]
  exact writeData_hang_iff h hn hg hcopy hroom

theorem Roomy.size_word (h : Roomy n) (hg : Growable n) : n.size ≤ 2147483648 :=
  (h.growthEnds_iff hg).mp (.inl h.size)

theorem vfsTruncate_hang_iff {length : Nat} (h : AllRoomy v) (hn : v.node a = some n) (hg : Growable n)
    (hcopy : CopyMade v a) : vfsTruncate v a length = .hang ↔ 2147483648 < length := by
  obtain ⟨w, hw⟩ := hcopy
  obtain ⟨n', hn', hroomy, hg'⟩ := dataCow_roomy h hn hg hw
  have hkind : ¬(n.dirBit ∨ isSymlinkNode n) := by
    rw [hg.file, hg.text]
    exact not_or.mpr ⟨Bool.false_ne_true, Bool.false_ne_true⟩
  have hsize := hroomy.size_word hg'
  unfold vfsTruncate
  rw [Vfs.load_live hn, Exec.ret_bind, if_neg hkind, if_neg (ne_true_of_eq_false hg.real), hw, Exec.ret_bind]
  dsimp only
  rw [if_neg (not_not.mpr rfl), Vfs.load_live hn', Exec.ret_bind]
  split
  · rename_i hlt
    exact ⟨nofun, fun hgt => absurd (Nat.lt_trans hgt hlt) (Nat.not_lt.mpr hsize)⟩
  · split
    · rename_i heq
      exact ⟨nofun, fun hgt => absurd (heq ▸ hgt) (Nat.not_lt.mpr hsize)⟩
    · rw [Exec.bind_eq_hang, growData_hang_iff hn' hroomy hg']
      rintro ⟨u, r⟩ hr
      dsimp only
      split
      · exact nofun
      · refine Exec.bind_ends (Vfs.load_ends _ _) fun m _ => Exec.bind_ends (Vfs.zeroBytes_ends _ _ _ _) fun x _ => nofun

/-- In every state that is reached, the capacity of a file can be doubled to
what a call requires if that is at most `2^31`; beyond, the call hangs. -/
theorem growth_ends_iff (hr : vfsSystem.Reach v) (hn : v.node a = some n) (hg : Growable n) (hcopy : CopyMade v a) :
    (∀ offset buffer, offset < 4294967296 → ¬devicePath n.path → offset + buffer.length < 4294967296 →
      (GrowthEnds n (offset + buffer.length) ∧ vfsWrite v a offset buffer ≠ .hang ↔ offset + buffer.length ≤ 2147483648)) ∧
    ∀ length, length < 4294967296 →
      (GrowthEnds n length ∧ vfsTruncate v a length ≠ .hang ↔ length ≤ 2147483648) := by
  have hroomy := AllRoomy.of_reach hr
  refine ⟨fun offset buffer _ hdev hroom => ?_, fun length _ => ?_⟩
  · rw [(hroomy a n hn).growthEnds_iff hg, Ne, vfsWrite_hang_iff hroomy hn hg hdev hcopy hroom, Nat.not_lt, and_self_iff]
  · rw [(hroomy a n hn).growthEnds_iff hg, Ne, vfsTruncate_hang_iff hroomy hn hg hcopy, Nat.not_lt, and_self_iff]

end Calls

/-- The file `/f`, just made. -/
theorem new_file_reached : ∃ v n, vfsCalls (emptyVfs (memoryOf 0xAA) none)
    [.openPath rootCaller (str "/f") 0x40] = .ret v ∧ vfsSystem.Reach v ∧ v.node 1 = some n ∧ Growable n ∧ CopyMade v 1 := by
  refine ⟨_, _, rfl, ?_, rfl, ⟨by decide, by decide, by decide⟩, _, rfl⟩
  exact reach_vfsCalls (S := vfsSystem) id (.init ⟨memoryOf 0xAA, none, rfl⟩) [.openPath rootCaller (str "/f") 0x40] rfl

theorem page_fits_new_file : ∃ v n, vfsCalls (emptyVfs (memoryOf 0xAA) none)
    [.openPath rootCaller (str "/f") 0x40] = .ret v ∧ v.node 1 = some n ∧ GrowthEnds n 4096 ∧
      vfsTruncate v 1 4096 ≠ .hang := by
  obtain ⟨v, n, hv, hr, hn, hg, hcopy⟩ := new_file_reached
  exact ⟨v, n, hv, hn, ((growth_ends_iff hr hn hg hcopy).2 4096 (by decide)).mpr (by decide)⟩

/-- One byte over half of the address space. -/
theorem truncate_never_ends : ¬∀ v a n, vfsSystem.Reach v → v.node a = some n → Growable n → CopyMade v a →
    ∀ length, length < 4294967296 → GrowthEnds n length ∧ vfsTruncate v a length ≠ .hang := by
  intro hall
  obtain ⟨v, n, hv, hr, hn, hg, hcopy⟩ := new_file_reached
  cases hv
  exact absurd rfl (hall _ 1 n hr hn hg hcopy 2147483649 (by decide)).2

end LiteBSD
