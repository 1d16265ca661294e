/-
# `LiteBSD.Vfs.Isolation` — hard links do not disturb one another

The ownership discipline `BlobInv` is kept by EVERY call, in any order and on
any names, as long as allocations succeed.  From it, for every call of every
run: counters are exact, a counter goes with its last holder and not before,
and no call changes the bytes of a node other than the one it works on.
-/
import LiteBSD.Vfs.Blobs

namespace LiteBSD

open Lib

/-- The node whose data a call may change or free. -/
def VfsCall.worksOn (v : Vfs) : VfsCall → Option Nat
  | .write a _ _ => some a
  | .truncate a _ => some a
  | .close a => some a
  | call => call.removes v

/-- Every node but `k` is still there, with its size and its bytes. -/
def Undisturbed (k : Option Nat) (v v' : Vfs) : Prop :=
  ∀ x n, k ≠ some x → v.node x = some n →
    ∃ n', v'.node x = some n' ∧ n'.size = n.size ∧ v'.bytes n' = v.bytes n

/-- No other node holds the counter `c` of the node at `a`. -/
def LastHolder (v : Vfs) (a c : Nat) : Prop :=
  v.counterOf a = some c ∧ ∀ b, b ≠ a → v.counterOf b ≠ some c

section Moves

variable {v v' : Vfs} {a : Nat} {n : Node}

theorem Isolated.undisturbed (h : Isolated a v v') : Undisturbed (some a) v v' := by
  intro x m hx hm
  have hxa : x ≠ a := fun he => hx (congrArg some he.symm)
  exact ⟨m, (h x m hxa hm).1, rfl, h.bytes hxa hm⟩

/-- The bytes of two nodes with the same buffer and size. -/
theorem bytes_congr {m : Node} (hblob : m.data = n.data ∧ m.size = n.size)
    (hbuf : v'.buf = v.buf) : v'.bytes m = v.bytes n := by
  unfold Vfs.bytes Vfs.byte
  rw [hblob.1, hblob.2, hbuf]

/-- Nodes get other labels and keep their data. -/
theorem Undisturbed.of_blobs (hbuf : v'.buf = v.buf)
    (hblob : ∀ x n, v.node x = some n →
      ∃ n', v'.node x = some n' ∧ n'.data = n.data ∧ n'.size = n.size) (k : Option Nat) :
    Undisturbed k v v' := by
  intro x n _ hn
  obtain ⟨n', hn', hd, hs⟩ := hblob x n hn
  exact ⟨n', hn', hs, bytes_congr ⟨hd, hs⟩ hbuf⟩

theorem BlobInv.of_relabel (h : BlobInv v) (hnodes : v'.nodes = v.nodes)
    (hblob : ∀ x, (v'.node x).map Node.toBlob = (v.node x).map Node.toBlob)
    (hbuf : v'.buf = v.buf) (hcell : v'.cell = v.cell) (hmem : v'.mem = v.mem)
    (hsup : v.nextObj ≤ v'.nextObj) : BlobInv v' := by
  have hback : ∀ {x n'}, v'.node x = some n' → ∃ n, v.node x = some n ∧ n.toBlob = n'.toBlob := by
    intro x n' hn'
    have hx := (hblob x).symm
    rw [hn', Option.map_some, Option.map_eq_some_iff] at hx
    exact hx
  have hforth : ∀ {x n}, v.node x = some n → ∃ n', v'.node x = some n' ∧ n'.toBlob = n.toBlob := by
    intro x n hn
    have hx := hblob x
    rw [hn, Option.map_some, Option.map_eq_some_iff] at hx
    exact hx
  have hptr : v'.counterOf = v.counterOf := by
    funext x
    have hx := congrArg (fun o => o.bind Blob.dataRefs) (hblob x)
    simp only [Option.bind_map] at hx
    exact hx
  constructor
  · rw [hmem]
    exact h.allocs
  · rw [hnodes, hptr, hcell]
    exact h.counted
  · intro x n' hn' hx
    obtain ⟨n, hn, he⟩ := hback hn'
    exact (congrArg Blob.dataRefs he).symm.trans (h.unshared x n hn (hnodes ▸ hx))
  · intro x y m' n' d hm' hn' hxy hmd hnd
    obtain ⟨m, hm, hem⟩ := hback hm'
    obtain ⟨n, hn, hen⟩ := hback hn'
    obtain ⟨c, hmc, hnc⟩ := h.apart x y m n d hm hn hxy ((congrArg Blob.data hem).trans hmd)
      ((congrArg Blob.data hen).trans hnd)
    exact ⟨c, (congrArg Blob.dataRefs hem).symm.trans hmc,
      (congrArg Blob.dataRefs hen).symm.trans hnc⟩
  · intro x y m' n' c hm' hn' hmc hnc
    obtain ⟨m, hm, hem⟩ := hback hm'
    obtain ⟨n, hn, hen⟩ := hback hn'
    rw [← hem, ← hen]
    exact h.agree x y m n c hm hn ((congrArg Blob.dataRefs hem).trans hmc)
      ((congrArg Blob.dataRefs hen).trans hnc)
  · intro x n' hn'
    obtain ⟨n, hn, he⟩ := hback hn'
    have hroom := h.room x n hn
    rwa [show n.size = n'.size from congrArg Blob.size he,
      show n.capacity = n'.capacity from congrArg Blob.capacity he] at hroom
  · intro x n' hn' hd
    obtain ⟨n, hn, he⟩ := hback hn'
    rw [← show n.capacity = n'.capacity from congrArg Blob.capacity he]
    exact h.bare x n hn ((congrArg Blob.data he).trans hd)
  · intro x n' d hn' hd
    obtain ⟨n, hn, he⟩ := hback hn'
    rw [hbuf, ← show n.capacity = n'.capacity from congrArg Blob.capacity he]
    exact h.held x n d hn ((congrArg Blob.data he).trans hd)
  · intro d m hm
    rw [hbuf] at hm
    obtain ⟨x, n, hn, hd⟩ := h.owned d m hm
    obtain ⟨n', hn', he⟩ := hforth hn
    exact ⟨x, n', hn', (congrArg Blob.data he).trans hd⟩
  · intro d hd
    rw [hbuf, hcell]
    exact h.fresh d (Nat.le_trans hsup hd)

/-- A store that keeps the data half of a node. -/
theorem map_toBlob_setNode {n' : Node} (hn : v.node a = some n) (hb : n'.toBlob = n.toBlob)
    (x : Nat) : ((v.setNode a n').node x).map Node.toBlob = (v.node x).map Node.toBlob := by
  simp only [Vfs.setNode, Function.update_apply]
  split
  · rename_i hx
    rw [hx, hn, Option.map_some, Option.map_some, hb]
  · rfl

theorem blobs_setNode {n' : Node} (hn : v.node a = some n) (hb : n'.toBlob = n.toBlob)
    (x : Nat) (m : Node) (hm : v.node x = some m) :
    ∃ m', (v.setNode a n').node x = some m' ∧ m'.data = m.data ∧ m'.size = m.size := by
  have hx := map_toBlob_setNode hn hb x
  rw [hm, Option.map_some, Option.map_eq_some_iff] at hx
  obtain ⟨m', hm', he⟩ := hx
  exact ⟨m', hm', congrArg Blob.data he, congrArg Blob.size he⟩

/-- A new node has nothing to do with the others. -/
theorem BlobInv.made (h : BlobInv v) (ht : NodeTable v) (hm : NewNode v v' a n) :
    BlobInv v' ∧ Undisturbed none v v' := by
  have hfree : v.node a = none := ht.fresh a hm.fresh.1
  have hptr : v'.counterOf = v.counterOf := by
    rw [counterOf_update hm.node, hm.unshared]
    refine Function.update_eq_self_iff.mpr ?_
    rw [Vfs.counterOf, hfree]
    rfl
  have hsup : v.nextObj ≤ v'.nextObj := Nat.le_of_lt (Nat.lt_of_le_of_lt hm.fresh.1 hm.fresh.2)
  obtain ⟨hbuf, hnew, hbare, hheld, hold, hlast⟩ := hm.data.spec
  have hall : BlobInv v' ∧ Sole v' a n ∧ Isolated a v v' := by
    refine h.of_sole hm.node (fun b m _ hb => ?_)
      (fun b m d _ hb hd => hbuf d (h.data_lt hb hd)) hm.size hbare hheld hm.mem ?_ ?_ ?_ ?_
    · refine ⟨fun d hd hbd => ?_, fun c hc => ?_⟩
      · exact absurd (h.data_lt hb hbd) (Nat.not_lt.mpr (hnew d hd))
      · rw [hm.unshared] at hc
        cases hc
    · rw [hptr, hm.cell, hm.nodes]
      split
      · exact h.counted
      · exact h.counted.of_empty_slot (by rw [Vfs.counterOf, hfree]; rfl)
    · intro x m hx hxn
      rw [hm.node] at hx
      by_cases hxa : x = a
      · rw [hxa, Function.update_self, Option.some.injEq] at hx
        rw [← hx, hm.unshared]
      · rw [Function.update_of_ne hxa] at hx
        refine h.unshared x m hx fun hin => hxn ?_
        rw [hm.nodes]
        split
        · exact hin
        · exact List.mem_cons_of_mem a hin
    · intro d m hd
      by_cases hnd : n.data = some d
      · exact ⟨a, n, by rw [hm.node, Function.update_self], hnd⟩
      have hmd : v.buf d = some m := by
        by_cases hlt : d < v.nextObj
        · rwa [hbuf d hlt] at hd
        · rwa [hold d (Nat.le_of_not_lt hlt) hnd] at hd
      obtain ⟨x, mx, hx, hxd⟩ := h.owned d m hmd
      have hxa : x ≠ a := by
        rintro rfl
        rw [hfree] at hx
        cases hx
      exact ⟨x, mx, by rw [hm.node, Function.update_of_ne hxa, hx], hxd⟩
    · intro d hd
      have hd' := h.fresh d (Nat.le_trans hsup hd)
      rw [hm.cell]
      exact ⟨(hold d (Nat.le_trans hsup hd) (hlast d hd)).trans hd'.1, hd'.2⟩
  refine ⟨hall.1, fun x m _ hx => hall.2.2.undisturbed x m (fun he => ?_) hx⟩
  rw [← Option.some.inj he, hfree] at hx
  cases hx

/-- A new node takes hold of a counted blob. -/
theorem BlobInv.share (h : BlobInv v) {t : Node} {target c : Nat} {k : Int}
    (hfree : v.node a = none) (hoff : a ∉ v.nodes) (ht : v.node target = some t)
    (hc : t.dataRefs = some c) (hk : v.cell c = some k)
    (hnode : v'.node = Function.update v.node a (some n)) (hblob : n.toBlob = t.toBlob)
    (hnodes : v'.nodes = a :: v.nodes) (hnd : v.nodes.Nodup)
    (hcell : v'.cell = Function.update v.cell c (some (k + 1)))
    (hbuf : v'.buf = v.buf) (hmem : v'.mem = v.mem) (hsup : v.nextObj ≤ v'.nextObj) :
    BlobInv v' := by
  have hdata : n.data = t.data := congrArg Blob.data hblob
  have hrefs : n.dataRefs = some c := (congrArg Blob.dataRefs hblob).trans hc
  have hcap : n.capacity = t.capacity := congrArg Blob.capacity hblob
  have hother : ∀ {x m}, x ≠ a → v'.node x = some m → v.node x = some m := by
    intro x m hx hm
    rwa [hnode, Function.update_of_ne hx] at hm
  have hself : ∀ {m}, v'.node a = some m → m = n := by
    intro m hm
    rw [hnode, Function.update_self, Option.some.injEq] at hm
    exact hm.symm
  -- the new node is a second `target`: what is said of it is said of that
  have htwin : ∀ {x m}, v'.node x = some m → ∃ y my, v.node y = some my ∧ my.toBlob = m.toBlob ∧
      (x ≠ a → y = x ∧ my = m) ∧ (x = a → y = target) := by
    intro x m hm
    by_cases hx : x = a
    · subst hx
      exact ⟨target, t, ht, by rw [hself hm, hblob], fun hne => absurd rfl hne, fun _ => rfl⟩
    · exact ⟨x, m, hother hx hm, rfl, fun _ => ⟨rfl, rfl⟩, fun he => absurd he hx⟩
  refine ⟨hmem ▸ h.allocs, ?_, ?_, ?_, ?_, ?_, ?_, ?_, ?_, ?_⟩
  · have hpa : v.counterOf a = none := by rw [Vfs.counterOf, hfree]; rfl
    have hslot := h.counted.of_empty_slot hpa
    have hnd' : (a :: v.nodes).Nodup := List.nodup_cons.mpr ⟨hoff, hnd⟩
    have hkn := (counter_eq_some ((hslot c).symm.trans hk)).1
    rw [hnodes, counterOf_update hnode, hrefs, hcell]
    exact hslot.retain hnd' List.mem_cons_self hpa hkn
  · intro x m hm hx
    rw [hnodes, List.mem_cons, not_or] at hx
    exact h.unshared x m (hother hx.1 hm) hx.2
  · intro x y mx my d hx hy hxy hdx hdy
    obtain ⟨x', mx', hx', hbx, hxe, hxt⟩ := htwin hx
    obtain ⟨y', my', hy', hby, hye, hyt⟩ := htwin hy
    rw [← show mx'.data = mx.data from congrArg Blob.data hbx] at hdx
    rw [← show my'.data = my.data from congrArg Blob.data hby] at hdy
    rw [← show mx'.dataRefs = mx.dataRefs from congrArg Blob.dataRefs hbx,
      ← show my'.dataRefs = my.dataRefs from congrArg Blob.dataRefs hby]
    by_cases hne : x' = y'
    · -- the two are the new node and its target
      subst hne
      obtain rfl : mx' = my' := Option.some.inj (hx'.symm.trans hy')
      have htar : x' = target := by
        by_cases hxa : x = a
        · exact hxt hxa
        · by_cases hya : y = a
          · exact hyt hya
          · exact absurd ((hxe hxa).1.symm.trans (hye hya).1) hxy
      subst htar
      obtain rfl : mx' = t := Option.some.inj (hx'.symm.trans ht)
      exact ⟨c, hc, hc⟩
    · exact h.apart x' y' mx' my' d hx' hy' hne hdx hdy
  · intro x y mx my e hx hy hex hey
    obtain ⟨x', mx', hx', hbx, _⟩ := htwin hx
    obtain ⟨y', my', hy', hby, _⟩ := htwin hy
    rw [← hbx, ← hby]
    exact h.agree x' y' mx' my' e hx' hy' ((congrArg Blob.dataRefs hbx).trans hex)
      ((congrArg Blob.dataRefs hby).trans hey)
  · intro x m hm
    obtain ⟨x', m', hx', hb, _⟩ := htwin hm
    have hroom := h.room x' m' hx'
    rwa [show m'.size = m.size from congrArg Blob.size hb,
      show m'.capacity = m.capacity from congrArg Blob.capacity hb] at hroom
  · intro x m hm hd
    obtain ⟨x', m', hx', hb, _⟩ := htwin hm
    rw [← show m'.capacity = m.capacity from congrArg Blob.capacity hb]
    exact h.bare x' m' hx' ((congrArg Blob.data hb).trans hd)
  · intro x m d hm hd
    obtain ⟨x', m', hx', hb, _⟩ := htwin hm
    rw [hbuf, ← show m'.capacity = m.capacity from congrArg Blob.capacity hb]
    exact h.held x' m' d hx' ((congrArg Blob.data hb).trans hd)
  · intro d m hd
    rw [hbuf] at hd
    obtain ⟨x, mx, hx, hxd⟩ := h.owned d m hd
    have hxa : x ≠ a := by
      rintro rfl
      rw [hfree] at hx
      cases hx
    exact ⟨x, mx, by rw [hnode, Function.update_of_ne hxa, hx], hxd⟩
  · intro d hd
    have hd' := h.fresh d (Nat.le_trans hsup hd)
    refine ⟨hbuf ▸ hd'.1, ?_⟩
    rw [hcell, Function.update_of_ne, hd'.2]
    exact Nat.ne_of_gt (Nat.lt_of_lt_of_le (lt_supply_of_cell h hk) (Nat.le_trans hsup hd))

/-- A node that nobody shares with gets a counter of 1. -/
theorem BlobInv.count (h : BlobInv v) (ht : NodeTable v) {t : Node} {target c : Nat}
    (hlive : v.node target = some t) (hin : target ∈ v.nodes) (hnone : t.dataRefs = none)
    (hc : v.nextObj ≤ c ∧ c < v'.nextObj) (hnodes : v'.nodes = v.nodes)
    (hnode : v'.node = Function.update v.node target (some { t with dataRefs := some c }))
    (hcell : v'.cell = Function.update v.cell c (some 1)) (hbuf : v'.buf = v.buf)
    (hmem : v'.mem = v.mem) : BlobInv v' := by
  have hsole : Sole v target t := h.sole hlive fun e k he => by rw [hnone] at he; cases he
  have hsup : v.nextObj ≤ v'.nextObj := Nat.le_of_lt (Nat.lt_of_le_of_lt hc.1 hc.2)
  refine (h.of_sole hnode ?_ (fun _ _ _ _ _ _ => by rw [hbuf]) (h.room target t hlive)
    (h.bare target t hlive) (fun d hd => hbuf ▸ h.held target t d hlive hd) hmem ?_ ?_ ?_ ?_).1
  · refine fun b m hb hm => ⟨(hsole b m hb hm).1, fun e he hme => ?_⟩
    rw [← Option.some.inj he] at hme
    exact absurd (h.dataRefs_lt hm hme) (Nat.not_lt.mpr hc.1)
  · rw [counterOf_update hnode, hnodes, hcell]
    exact h.counted.retain ht.nodup hin ((counterOf_eq hlive).trans hnone) (o := c) (k := 0)
      (by rw [h.counted.not_held (h.fresh c hc.1).2]; rfl)
  · intro x m hm hx
    rw [hnodes] at hx
    have hxt : x ≠ target := fun he => hx (he ▸ hin)
    rw [hnode, Function.update_of_ne hxt] at hm
    exact h.unshared x m hm hx
  · intro d m hd
    rw [hbuf] at hd
    obtain ⟨x, mx, hx, hxd⟩ := h.owned d m hd
    by_cases hxt : x = target
    · subst hxt
      obtain rfl : mx = t := Option.some.inj (hx.symm.trans hlive)
      exact ⟨x, { mx with dataRefs := some c }, by rw [hnode, Function.update_self], hxd⟩
    · exact ⟨x, mx, by rw [hnode, Function.update_of_ne hxt, hx], hxd⟩
  · intro d hd
    have hd' := h.fresh d (Nat.le_trans hsup hd)
    rw [hbuf, hcell, Function.update_of_ne (Nat.ne_of_gt (Nat.lt_of_lt_of_le hc.2 hd))]
    exact hd'

theorem BlobInv.linked (h : BlobInv v) (ht : NodeTable v) {t : Node} {target c : Nat}
    (hl : NewLink v v' a target c n t) :
    BlobInv v' ∧ Undisturbed none v v' ∧ ∀ e, v.cell e ≠ none → v'.cell e ≠ none := by
  have hfree : v.node a = none := ht.fresh a hl.fresh.1
  have hta : target ≠ a := by
    rintro rfl
    rw [hl.live] at hfree
    cases hfree
  have hoff : a ∉ v.nodes := by
    intro hin
    obtain ⟨m, hm, _⟩ := ht.listed a hin
    rw [hfree] at hm
    cases hm
  have hin : target ∈ v.nodes := by
    -- the root is a directory
    rcases hl.listed with hroot | hin
    · obtain ⟨r, hr, hdir⟩ := ht.root
      rw [← hroot, hl.live, Option.some.injEq] at hr
      rw [← hr, hl.file] at hdir
      cases hdir
    · exact hin
  have hsup : v.nextObj ≤ v'.nextObj := Nat.le_of_lt (Nat.lt_of_le_of_lt hl.fresh.1 hl.fresh.2)
  refine ⟨?_, .of_blobs hl.buf (fun x m hm => ?_) none, fun e he => ?_⟩
  · rcases hl.counter with ⟨k, hc, hk, hcell⟩ | ⟨hnone, hlo, hhi, hcell⟩
    · refine h.share hfree hoff hl.live hc hk ?_ (hl.shares.trans ?_) hl.nodes ht.nodup hcell hl.buf
        hl.mem hsup
      · rw [hl.node, ← hc, ← hl.live, Function.update_eq_self]
      · rw [← hc]
    · have hone : BlobInv { v with
          node := Function.update v.node target (some { t with dataRefs := some c })
          cell := Function.update v.cell c (some 1), nextObj := v'.nextObj } :=
        h.count ht hl.live hin hnone ⟨hlo, hhi⟩ rfl rfl rfl rfl rfl
      refine hone.share (a := a) (c := c) (k := 1) ?_ hoff (Function.update_self _ _ _) rfl
        (Function.update_self _ _ _) hl.node hl.shares hl.nodes ht.nodup ?_ hl.buf hl.mem
        (Nat.le_refl _)
      · simp only [Function.update_of_ne (Ne.symm hta), hfree]
      · simp only [hcell, Function.update_idem]
        rfl
  · rw [hl.node]
    have hxa : x ≠ a := by
      rintro rfl
      rw [hfree] at hm
      cases hm
    rw [Function.update_of_ne hxa]
    by_cases hxt : x = target
    · subst hxt
      obtain rfl : m = t := Option.some.inj (hm.symm.trans hl.live)
      exact ⟨_, Function.update_self _ _ _, rfl, rfl⟩
    · exact ⟨m, by rw [Function.update_of_ne hxt, hm], rfl, rfl⟩
  · rcases hl.counter with ⟨k, _, _, hcell⟩ | ⟨_, _, _, hcell⟩ <;>
    · rw [hcell, Function.update_apply]
      split
      · simp
      · exact he

/-- Is the counter of the node the last one? -/
theorem BlobInv.last_iff (h : BlobInv v) (hnd : v.nodes.Nodup) {c : Nat} {k : Int}
    (hn : v.node a = some n) (hc : n.dataRefs = some c) (hk : v.cell c = some k) :
    k - 1 ≤ 0 ↔ LastHolder v a c := by
  have hkn := counter_eq_some ((h.counted c).symm.trans hk)
  have ha := h.listed hn hc
  have hpa : v.counterOf a = some c := (counterOf_eq hn).trans hc
  constructor
  · refine fun hle => ⟨hpa, fun b hb hbc => ?_⟩
    obtain ⟨m, hm, hmc⟩ := Option.bind_eq_some_iff.mp hbc
    have htwo := two_le_holders ha (h.listed hm hmc) (Ne.symm hb) hpa hbc
    omega
  · intro hlast
    by_contra hgt
    obtain ⟨b, _, hb, hbc⟩ := exists_other_holder hnd v.counterOf (o := c) (by omega) ha
    exact hlast.2 b hb hbc

/-- A buffer that another node points at stays. -/
theorem Unlinked.keeps (hu : Unlinked v v' a n) (h : BlobInv v) (hnd : v.nodes.Nodup) :
    ∀ b m d, b ≠ a → v.node b = some m → m.data = some d → v'.buf d = v.buf d := by
  intro b m d hb hm hmd
  by_cases hnd' : n.data = some d
  · obtain ⟨c, hnc, hmc⟩ := h.apart a b n m d hu.live hm (Ne.symm hb) hnd' hmd
    rcases hu.data with ⟨hnone, _⟩ | ⟨c', k, hc', hk, _, hbuf⟩
    · rw [hnone] at hnc
      cases hnc
    · obtain rfl : c = c' := Option.some.inj (hnc.symm.trans hc')
      rw [hbuf, if_neg]
      intro hle
      exact ((h.last_iff hnd hu.live hc' hk).mp hle).2 b hb ((counterOf_eq hm).trans hmc)
  · rcases hu.data with ⟨_, _, hbuf⟩ | ⟨_, _, _, _, _, hbuf⟩
    · rw [hbuf, dropBuf_of_ne hnd']
    · rw [hbuf]
      split
      · exact dropBuf_of_ne hnd'
      · rfl

/-- A close that frees a synthetic node, which is on no list and shares with
nobody. -/
theorem BlobInv.closed (h : BlobInv v) (ht : NodeTable v) {ret : Int} (hc : vfsClose v a = .ret (v', ret)) :
    ∃ n, v.node a = some n ∧ ((∃ k, v' = v.setNode a { n with refs := k }) ∨ v'.cell = v.cell ∧ Unlinked v v' a n) := by
  obtain ⟨n, hn, hset | ⟨hsynth, _, _, hnodes, hnode, hbuf, hcell, hmem, hobj⟩⟩ := vfsClose_ret hc
  · exact ⟨n, hn, .inl hset⟩
  · have hoff : a ∉ v.nodes := by
      intro ha
      obtain ⟨m, hm, hms⟩ := ht.listed a ha
      rw [hn, Option.some.injEq] at hm
      rw [hm, hms] at hsynth
      cases hsynth
    exact ⟨n, hn, .inr ⟨hcell, hn, by rw [hnodes, List.erase_of_not_mem hoff], hnode, hmem, hobj,
      .inl ⟨h.unshared a n hn hoff, hcell, hbuf⟩⟩⟩

/-- A node is freed: its counter is given back, and its buffer goes when it
was the last to hold it. -/
theorem BlobInv.unlinked (h : BlobInv v) (hnd : v.nodes.Nodup) (hu : Unlinked v v' a n) :
    BlobInv v' ∧ Undisturbed (some a) v v' ∧
      ∀ c, v.cell c ≠ none → (v'.cell c = none ↔ LastHolder v a c) := by
  have hother : ∀ {x m}, v'.node x = some m → x ≠ a ∧ v.node x = some m := by
    intro x m hm
    have hx : x ≠ a := by
      rintro rfl
      rw [hu.node, Function.update_self] at hm
      cases hm
    rw [hu.node, Function.update_of_ne hx] at hm
    exact ⟨hx, hm⟩
  have hptr : v'.counterOf = Function.update v.counterOf a none := by
    funext x
    unfold Vfs.counterOf
    rw [hu.node]
    by_cases hx : x = a
    · rw [hx, Function.update_self, Function.update_self]
      rfl
    · rw [Function.update_of_ne hx, Function.update_of_ne hx]
  have hkeep := hu.keeps h hnd
  have hsub : ∀ d, v'.buf d = none ∨ v'.buf d = v.buf d := by
    intro d
    have hdrop : dropBuf v.buf n.data d = none ∨ dropBuf v.buf n.data d = v.buf d := by
      by_cases hd : n.data = some d
      · exact .inl (by rw [hd, dropBuf_self])
      · exact .inr (dropBuf_of_ne hd)
    rcases hu.data with ⟨_, _, hbuf⟩ | ⟨_, _, _, _, _, hbuf⟩
    · rw [hbuf]
      exact hdrop
    · rw [hbuf]
      split
      · exact hdrop
      · exact .inr rfl
  have hiso : Isolated a v v' := fun x m hx hm =>
    ⟨by rw [hu.node, Function.update_of_ne hx, hm], fun d hd => hkeep x m d hx hm hd⟩
  refine ⟨⟨hu.mem ▸ h.allocs, ?_, ?_, ?_, ?_, ?_, ?_, ?_, ?_, ?_⟩, hiso.undisturbed, ?_⟩
  · rw [hu.nodes, hptr]
    rcases hu.data with ⟨hnone, hcell, _⟩ | ⟨c, k, hc, hk, hcell, _⟩
    · rw [hcell]
      have hpa : v.counterOf a = none := (counterOf_eq hu.live).trans hnone
      rw [← hpa, Function.update_eq_self]
      by_cases ha : a ∈ v.nodes
      · exact h.counted.erase ha hpa
      · rw [List.erase_of_not_mem ha]
        exact h.counted
    · rw [hcell]
      have ha := h.listed hu.live hc
      exact (h.counted.release hnd ha ((counterOf_eq hu.live).trans hc) hk).erase ha
        (Function.update_self _ _ _)
  · intro x m hm hx
    obtain ⟨hxa, hm⟩ := hother hm
    exact h.unshared x m hm fun hin => hx (hu.nodes ▸ (List.mem_erase_of_ne hxa).mpr hin)
  · intro x y mx my d hx hy hxy
    exact h.apart x y mx my d (hother hx).2 (hother hy).2 hxy
  · intro x y mx my c hx hy
    exact h.agree x y mx my c (hother hx).2 (hother hy).2
  · intro x m hm
    exact h.room x m (hother hm).2
  · intro x m hm
    exact h.bare x m (hother hm).2
  · intro x m d hm hd
    obtain ⟨hxa, hm⟩ := hother hm
    rw [hkeep x m d hxa hm hd]
    exact h.held x m d hm hd
  · intro d m hd
    rcases hsub d with hnone | hsame
    · rw [hnone] at hd
      cases hd
    obtain ⟨x, mx, hx, hxd⟩ := h.owned d m (hsame ▸ hd)
    by_cases hxa : x = a
    · -- the buffer of the freed node is still there: it was shared
      subst hxa
      obtain rfl : mx = n := Option.some.inj (hx.symm.trans hu.live)
      rcases hu.data with ⟨_, _, hbuf⟩ | ⟨c, k, hc, hk, _, hbuf⟩
      · rw [hbuf, hxd, dropBuf_self] at hd
        cases hd
      · split at hbuf
        · rw [hbuf, hxd, dropBuf_self] at hd
          cases hd
        · rename_i hgt
          have hcount := (counter_eq_some ((h.counted c).symm.trans hk)).1
          obtain ⟨y, _, hyx, hyc⟩ := exists_other_holder hnd v.counterOf (o := c)
            (by omega) (h.listed hx hc)
          obtain ⟨my, hmy, hmyc⟩ := Option.bind_eq_some_iff.mp hyc
          have hag := h.agree y x my mx c hmy hx hmyc hc
          exact ⟨y, my, by rw [hu.node, Function.update_of_ne hyx, hmy],
            (congrArg Blob.data hag).trans hxd⟩
    · exact ⟨x, mx, by rw [hu.node, Function.update_of_ne hxa, hx], hxd⟩
  · intro d hd
    rw [hu.supply] at hd
    have hd' := h.fresh d hd
    refine ⟨(hsub d).elim id fun hs => hs.trans hd'.1, ?_⟩
    rcases hu.data with ⟨_, hcell, _⟩ | ⟨c, k, _, hk, hcell, _⟩
    · rw [hcell, hd'.2]
    · rw [hcell, Function.update_of_ne, hd'.2]
      exact Nat.ne_of_gt (Nat.lt_of_lt_of_le (lt_supply_of_cell h hk) hd)
  · intro e he
    rcases hu.data with ⟨hnone, hcell, _⟩ | ⟨c, k, hc, hk, hcell, _⟩
    · rw [hcell]
      refine ⟨fun hno => absurd hno he, fun hlast => ?_⟩
      rw [LastHolder, counterOf_eq hu.live, hnone] at hlast
      cases hlast.1
    · by_cases hec : e = c
      · subst hec
        rw [hcell, Function.update_self, ← h.last_iff hnd hu.live hc hk]
        split <;> simp_all
      · rw [hcell, Function.update_of_ne hec]
        refine ⟨fun hno => absurd hno he, fun hlast => ?_⟩
        rw [LastHolder, counterOf_eq hu.live, hc, Option.some.injEq] at hlast
        exact absurd hlast.1.symm hec

end Moves

/-! ## Steps and runs -/

/-- What the claims of this module say about one call: the discipline is
kept, the other nodes keep their bytes, and a counter is freed exactly if
the call unlinks its last holder. -/
structure BlobStep (v : Vfs) (call : VfsCall) (v' : Vfs) : Prop where
  inv : BlobInv v'
  others : Undisturbed (call.worksOn v) v v'
  freed : ∀ c, v.cell c ≠ none →
    (v'.cell c = none ↔ ∃ a, call.removes v = some a ∧ LastHolder v a c)

section Steps

variable {v v' : Vfs} {call : VfsCall}

/-- A call that removes nothing frees no counter. -/
theorem BlobStep.of_kept (hinv : BlobInv v') (hothers : Undisturbed (call.worksOn v) v v')
    (hno : call.removes v = none) (hcells : ∀ c, v.cell c ≠ none → v'.cell c ≠ none) :
    BlobStep v call v' := by
  refine ⟨hinv, hothers, fun c hc => ⟨fun hfree => absurd hfree (hcells c hc), ?_⟩⟩
  rintro ⟨a, ha, _⟩
  rw [hno] at ha
  cases ha

theorem Undisturbed.mono {k : Option Nat} (h : Undisturbed none v v') : Undisturbed k v v' :=
  fun x n _ hn => h x n (by simp) hn

theorem blob_step (h : BlobInv v) (ht : NodeTable v) (hs : vfsCall v call = .ret v') :
    BlobStep v call v' := by
  cases hrem : call.removes v with
  | some a =>
      obtain ⟨n, hu⟩ := unlinkNode_ret (unlinkNode_of_removes hrem hs)
      obtain ⟨hinv, hothers, hfreed⟩ := h.unlinked ht.nodup hu
      refine ⟨hinv, ?_, fun c hc => (hfreed c hc).trans ⟨fun hl => ⟨a, hrem, hl⟩, ?_⟩⟩
      · cases call with
        | unlink c path =>
            show Undisturbed (VfsCall.removes v (.unlink c path)) v v'
            rw [hrem]
            exact hothers
        | rmdir c path =>
            show Undisturbed (VfsCall.removes v (.rmdir c path)) v v'
            rw [hrem]
            exact hothers
        | _ => cases hrem
      · rintro ⟨b, hb, hl⟩
        rw [hrem, Option.some.injEq] at hb
        exact hb ▸ hl
  | none =>
      cases call_effect ht.fresh hs with
      | idle hid =>
          refine .of_kept (h.of_relabel hid.nodes (fun x => by rw [hid.node]) hid.buf hid.cell
            hid.mem hid.supply) (.of_blobs hid.buf (fun x n hn => ?_) _) hrem fun c hc => ?_
          · exact ⟨n, hid.node ▸ hn, rfl, rfl⟩
          · rwa [hid.cell]
      | @opened _ _ _ a n hn _ hv =>
          subst hv
          refine .of_kept (h.of_relabel rfl (map_toBlob_setNode hn rfl) rfl rfl rfl
            (Nat.le_refl _)) (.of_blobs (by rfl) ?_ _) hrem fun c hc => hc
          exact blobs_setNode hn rfl
      | made hm _ =>
          obtain ⟨hinv, hothers⟩ := h.made ht hm
          exact .of_kept hinv hothers.mono hrem fun c hc => hm.cell ▸ hc
      | linked hl _ =>
          obtain ⟨hinv, hothers, hcells⟩ := h.linked ht hl
          exact .of_kept hinv hothers.mono hrem hcells
      | wrote hw =>
          rcases vfsWrite_spec h ht.nodup hw with ⟨fb, rfl⟩ | ⟨n, n', hn, hwork⟩
          · exact .of_kept (h.of_relabel rfl (fun _ => rfl) rfl rfl rfl (Nat.le_refl _))
              (.of_blobs (by rfl) (fun x n hn => ⟨n, hn, rfl, rfl⟩) _) hrem fun c hc => hc
          · exact .of_kept hwork.inv hwork.isolated.undisturbed hrem hwork.cells
      | @truncated a length ret hw =>
          obtain ⟨n, hn, _⟩ := Exec.bind_eq_ret.mp hw
          rcases vfsTruncate_spec h ht.nodup (Vfs.load_ret hn) hw with ⟨_, rfl, _⟩ | ⟨_, n', hwork, _⟩
          · exact .of_kept h (.of_blobs (by rfl) (fun x n hn => ⟨n, hn, rfl, rfl⟩) _) hrem fun c hc => hc
          · exact .of_kept hwork.inv hwork.isolated.undisturbed hrem hwork.cells
      | @closed a ret hc =>
          obtain ⟨n, hn, ⟨k, rfl⟩ | ⟨hcell, hu⟩⟩ := h.closed ht hc
          · refine .of_kept (h.of_relabel rfl (map_toBlob_setNode hn rfl) rfl rfl rfl
              (Nat.le_refl _)) (.of_blobs (by rfl) ?_ _) hrem fun c hc => hc
            exact blobs_setNode hn rfl
          · obtain ⟨hinv, hothers, _⟩ := h.unlinked ht.nodup hu
            exact .of_kept hinv hothers hrem fun c hc => hcell ▸ hc
      | unlinked ha _ _ =>
          rw [hrem] at ha
          cases ha
      | renamed _ hr =>
          obtain ⟨n, _, rfl⟩ := renameNode_ret hr
          refine .of_kept (h.of_relabel rfl (fun x => ?_) rfl rfl rfl (Nat.le_refl _))
            (.of_blobs (by rfl) (fun x m hm => ?_) _) hrem fun c hc => hc
          · simp only [Option.map_map]
            rfl
          · exact ⟨_, congrArg (Option.map _) hm, rfl, rfl⟩

end Steps

/-- The file system starts empty, and every allocation it makes succeeds. -/
def blobSystem : System Vfs VfsCall where
  init := fun v => VfsBoot v ∧ ∀ i, v.mem.outcome i ≠ .null
  step := vfsSystem.step

theorem BlobInv.of_boot {v : Vfs} (h : blobSystem.init v) : BlobInv v := by
  obtain ⟨⟨mem, fb, rfl⟩, hmem⟩ := h
  have hroot : ∀ {a n}, (emptyVfs mem fb).node a = some n → n = rootNode := by
    intro a n hn
    simp only [emptyVfs, Function.update_apply] at hn
    split at hn
    · exact (Option.some.inj hn).symm
    · cases hn
  have hptr : ∀ a, (emptyVfs mem fb).counterOf a = none := by
    intro a
    rw [Vfs.counterOf, Option.bind_eq_none_iff]
    intro n hn
    rw [hroot hn]
    rfl
  refine ⟨hmem, fun o => rfl, ?_, ?_, ?_, ?_, ?_, ?_, ?_, ?_⟩
  · intro a n hn _
    rw [hroot hn]
    rfl
  · intro a b m n d hm _ _ hd
    rw [hroot hm] at hd
    cases hd
  · intro a b m n c hm _ hc
    rw [hroot hm] at hc
    cases hc
  · intro a n hn
    rw [hroot hn]
    decide
  · intro a n hn _
    rw [hroot hn]
    rfl
  · intro a n d hn hd
    rw [hroot hn] at hd
    cases hd
  · intro d m hm
    cases hm
  · intro d _
    exact ⟨rfl, rfl⟩

theorem BlobInv.of_reach {v : Vfs} (h : blobSystem.Reach v) : BlobInv v ∧ NodeTable v :=
  System.ReachVia.invariant (I := fun v => BlobInv v ∧ NodeTable v)
    (fun _ hv => ⟨.of_boot hv, .of_boot hv.1⟩)
    (fun _ _ _ hi _ hs => ⟨(blob_step hi.1 hi.2 hs).inv, hi.2.step hs⟩) h

/-- Hard links, in every state of every run in which allocations succeed:
the counter of a blob is the number of the nodes that hold it; nodes that
have one buffer have one counter; a buffer is allocated exactly while a node
has it, and a call frees a counter exactly if it unlinks its last holder; and
a call leaves the size and the bytes of every node it does not work on. -/
theorem hard_links_isolated {v : Vfs} (h : blobSystem.Reach v) :
    (∀ c, v.cell c = counter (holders v.nodes v.counterOf c)) ∧
    (∀ a n, v.node a = some n → n.dataRefs ≠ none → a ∈ v.nodes) ∧
    (∀ a b m n d, v.node a = some m → v.node b = some n → a ≠ b → m.data = some d →
      n.data = some d → ∃ c, m.dataRefs = some c ∧ n.dataRefs = some c) ∧
    (∀ d, v.buf d ≠ none ↔ ∃ a n, v.node a = some n ∧ n.data = some d) ∧
    ∀ call v', vfsCall v call = .ret v' →
      (∀ c, v.cell c ≠ none →
        (v'.cell c = none ↔ ∃ a, call.removes v = some a ∧ LastHolder v a c)) ∧
      ∀ x n, call.worksOn v ≠ some x → v.node x = some n →
        ∃ n', v'.node x = some n' ∧ n'.size = n.size ∧ v'.bytes n' = v.bytes n := by
  obtain ⟨hinv, ht⟩ := BlobInv.of_reach h
  refine ⟨hinv.counted, fun a n hn hc => ?_, hinv.apart, fun d => ⟨fun hd => ?_, ?_⟩, ?_⟩
  · obtain ⟨c, hc⟩ := Option.ne_none_iff_exists'.mp hc
    exact hinv.listed hn hc
  · obtain ⟨m, hm⟩ := Option.ne_none_iff_exists'.mp hd
    exact hinv.owned d m hm
  · rintro ⟨a, n, hn, hd⟩
    obtain ⟨m, hm, _⟩ := hinv.held a n d hn hd
    rw [hm]
    simp
  · intro call v' hs
    have hstep := blob_step hinv ht hs
    exact ⟨hstep.freed, hstep.others⟩

/-- Two names for one file, one of which is written to. -/
theorem link_then_write : ∃ v, blobSystem.Reach v ∧ v.nodes.length = 2 ∧
    ∀ call v', vfsCall v call = .ret v' → ∀ x n, call.worksOn v ≠ some x → v.node x = some n →
      ∃ n', v'.node x = some n' ∧ n'.size = n.size ∧ v'.bytes n' = v.bytes n := by
  have hreach := reach_vfsCalls (S := blobSystem) id
    (.init ⟨⟨memoryOf 0, none, rfl⟩, fun _ h => by cases h⟩)
    [.openPath rootCaller (str "/f") 0x40, .write 1 0 [7, 8],
      .link rootCaller (str "/g") (str "/f"), .write 1 1 [9]] rfl
  exact ⟨_, hreach, rfl, fun call v' hs => ((hard_links_isolated hreach).2.2.2.2 call v' hs).2⟩

end LiteBSD
