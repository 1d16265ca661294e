/-
# `LiteBSD.Vfs.Blobs` — hard links, copy on write, and who holds which bytes

A hard link is a second node with the data pointer of the first; the two
share a counter.  `BlobInv` is the ownership discipline behind that:

  * the counters are EXACT (`Counted`, with the listed nodes as the slots);
  * nodes that share a buffer share its counter, and nodes that share a
    counter agree about buffer, size and capacity;
  * a node's bytes fit its buffer, and a buffer is allocated exactly while
    some node points at it.

Everything that writes makes the node the sole holder first (`dataCow_spec`),
and from then on touches buffers that no other node can see.  The result is
that any call on one node leaves every other node, and its bytes, alone
(`Isolated`).
-/
import LiteBSD.Lib.Holders
import LiteBSD.Vfs.Steps

namespace LiteBSD

open Lib

/-- The counter a node points at. -/
def Vfs.counterOf (v : Vfs) (a : Nat) : Option Nat := (v.node a).bind fun n => n.dataRefs

/-- The byte at index `i` of the buffer of a node. -/
def Vfs.byte (v : Vfs) (n : Node) (i : Nat) : UInt8 :=
  ((n.data.bind v.buf).map fun m => m.byte i).getD 0

/-- The bytes `[0, size)` of a node. -/
def Vfs.bytes (v : Vfs) (n : Node) : List UInt8 :=
  (List.range n.size).map (v.byte n)

/-- Who owns the buffers and the counters. -/
structure BlobInv (v : Vfs) : Prop where
  allocs : ∀ i, v.mem.outcome i ≠ .null
  counted : Counted v.nodes v.counterOf v.cell
  unshared : ∀ a n, v.node a = some n → a ∉ v.nodes → n.dataRefs = none
  apart : ∀ a b m n d, v.node a = some m → v.node b = some n → a ≠ b → m.data = some d →
    n.data = some d → ∃ c, m.dataRefs = some c ∧ n.dataRefs = some c
  agree : ∀ a b m n c, v.node a = some m → v.node b = some n → m.dataRefs = some c →
    n.dataRefs = some c → m.toBlob = n.toBlob
  room : ∀ a n, v.node a = some n → n.size ≤ n.capacity
  bare : ∀ a n, v.node a = some n → n.data = none → n.capacity = 0
  held : ∀ a n d, v.node a = some n → n.data = some d → ∃ m, v.buf d = some m ∧ m.len = n.capacity
  owned : ∀ d m, v.buf d = some m → ∃ a n, v.node a = some n ∧ n.data = some d
  fresh : ∀ d, v.nextObj ≤ d → v.buf d = none ∧ v.cell d = none

/-- No other node has the buffer or the counter of the node at `a`. -/
def Sole (v : Vfs) (a : Nat) (n : Node) : Prop :=
  ∀ b m, b ≠ a → v.node b = some m →
    (∀ d, n.data = some d → m.data ≠ some d) ∧ ∀ c, n.dataRefs = some c → m.dataRefs ≠ some c

/-- The other nodes are as before, and so are their buffers. -/
def Isolated (a : Nat) (v v' : Vfs) : Prop :=
  ∀ x n, x ≠ a → v.node x = some n →
    v'.node x = some n ∧ ∀ d, n.data = some d → v'.buf d = v.buf d

section Basics

variable {v v' v'' : Vfs} {a : Nat} {n : Node}

theorem Isolated.refl (a : Nat) (v : Vfs) : Isolated a v v :=
  fun _ _ _ hn => ⟨hn, fun _ _ => rfl⟩

theorem Isolated.trans (h : Isolated a v v') (h' : Isolated a v' v'') : Isolated a v v'' := by
  intro x n hx hn
  obtain ⟨hn', hb⟩ := h x n hx hn
  obtain ⟨hn'', hb'⟩ := h' x n hx hn'
  exact ⟨hn'', fun d hd => (hb' d hd).trans (hb d hd)⟩

theorem Isolated.bytes {x : Nat} (h : Isolated a v v') (hx : x ≠ a) (hn : v.node x = some n) :
    v'.bytes n = v.bytes n := by
  unfold Vfs.bytes Vfs.byte
  cases hd : n.data with
  | none => rfl
  | some d => rw [Option.bind_some, Option.bind_some, (h x n hx hn).2 d hd]

theorem byte_eq {d i : Nat} {m : Buf} (hd : n.data = some d) (hm : v.buf d = some m) :
    v.byte n i = m.byte i := by
  rw [Vfs.byte, hd, Option.bind_some, hm]
  rfl

/-- A node that shares is on the list. -/
theorem BlobInv.listed (h : BlobInv v) {c : Nat} (hn : v.node a = some n)
    (hc : n.dataRefs = some c) : a ∈ v.nodes := by
  by_contra ha
  rw [h.unshared a n hn ha] at hc
  cases hc

theorem counterOf_eq (hn : v.node a = some n) : v.counterOf a = n.dataRefs := by
  rw [Vfs.counterOf, hn, Option.bind_some]

/-- A node without a counter, or with a counter of 1, is the sole holder. -/
theorem BlobInv.sole (h : BlobInv v) (hn : v.node a = some n)
    (hone : ∀ c k, n.dataRefs = some c → v.cell c = some k → k ≤ 1) : Sole v a n := by
  have hrefs : ∀ b m, b ≠ a → v.node b = some m → ∀ c, n.dataRefs = some c →
      m.dataRefs ≠ some c := by
    intro b m hb hm c hc hmc
    have htwo := two_le_holders (h.listed hn hc) (h.listed hm hmc) (Ne.symm hb)
      ((counterOf_eq hn).trans hc) ((counterOf_eq hm).trans hmc)
    have hcell := (h.counted.of_held (h.listed hn hc) ((counterOf_eq hn).trans hc)).1
    have hle := hone c _ hc hcell
    omega
  refine fun b m hb hm => ⟨fun d hd hmd => ?_, hrefs b m hb hm⟩
  obtain ⟨c, hnc, hmc⟩ := h.apart a b n m d hn hm (Ne.symm hb) hd hmd
  exact hrefs b m hb hm c hnc hmc

theorem lt_supply_of_buf (h : BlobInv v) {d : Nat} {m : Buf} (hm : v.buf d = some m) :
    d < v.nextObj := by
  by_contra hge
  rw [(h.fresh d (Nat.le_of_not_lt hge)).1] at hm
  cases hm

theorem lt_supply_of_cell (h : BlobInv v) {c : Nat} {k : Int} (hk : v.cell c = some k) :
    c < v.nextObj := by
  by_contra hge
  rw [(h.fresh c (Nat.le_of_not_lt hge)).2] at hk
  cases hk

/-- With memory to be had, an allocation of some bytes gives a block. -/
theorem Vfs.kmalloc_block {size : Nat} {p : Option Nat} (hmem : ∀ i, v.mem.outcome i ≠ .null)
    (hsize : size ≠ 0) (h : v.kmalloc size = .ret (v', p)) :
    p = some v.nextObj ∧ v' = { v with nextObj := v.nextObj + 1 } := by
  unfold Vfs.kmalloc at h
  rw [if_neg hsize] at h
  split at h
  · cases h
  · split at h
    · cases h
      exact ⟨rfl, rfl⟩
    · rename_i hnull
      exact absurd hnull (hmem _)
    · cases h

theorem Vfs.kmallocBuf_block {size : Nat} {p : Option Nat} (hmem : ∀ i, v.mem.outcome i ≠ .null)
    (hsize : size ≠ 0) (h : v.kmallocBuf size = .ret (v', p)) :
    p = some v.nextObj ∧ v' = { v with
      nextObj := v.nextObj + 1
      buf := Function.update v.buf v.nextObj (some ⟨size, v.mem.junk v.nextObj⟩) } := by
  obtain ⟨⟨w, q⟩, hw, h⟩ := Exec.bind_eq_ret.mp h
  obtain ⟨rfl, rfl⟩ := Vfs.kmalloc_block hmem hsize hw
  cases h
  exact ⟨rfl, rfl⟩

theorem Vfs.copyBytes_ret {dst k : Nat} {data : Option Nat}
    (h : v.copyBytes dst data k = .ret v') :
    (k = 0 ∧ v' = v) ∨ ∃ b src m, data = some b ∧ v.buf b = some src ∧ v.buf dst = some m ∧
      v' = v.setBuf dst (m.copy src k) := by
  unfold Vfs.copyBytes at h
  split at h
  · cases h
    exact .inl ⟨by assumption, rfl⟩
  · cases data with
    | none => cases h
    | some b =>
        obtain ⟨src, hsrc, h⟩ := Exec.bind_eq_ret.mp h
        obtain ⟨m, hm, h⟩ := Exec.bind_eq_ret.mp h
        split at h
        · cases h
          exact .inr ⟨b, src, m, rfl, Vfs.loadBuf_ret hsrc, Vfs.loadBuf_ret hm, rfl⟩
        · cases h

/-- A new block of `size` bytes that holds the first `k` bytes of `data`. -/
structure CopyOf (v v' : Vfs) (data : Option Nat) (size k : Nat) (m : Buf) : Prop where
  eq : v' = { v with
    nextObj := v.nextObj + 1
    buf := Function.update v.buf v.nextObj (some m) }
  len : m.len = size
  bytes : ∀ d src, data = some d → v.buf d = some src → ∀ i, i < k → m.byte i = src.byte i

theorem copyOf_block {w : Vfs} {size : Nat} {data p : Option Nat}
    (hmem : ∀ i, v.mem.outcome i ≠ .null) (hsize : size ≠ 0)
    (hold : ∀ d, data = some d → d ≠ v.nextObj)
    (hw : v.kmallocBuf size = .ret (w, p)) :
    p = some v.nextObj ∧ ∀ k v', w.copyBytes v.nextObj data k = .ret v' →
      ∃ m, CopyOf v v' data size k m := by
  obtain ⟨rfl, rfl⟩ := Vfs.kmallocBuf_block hmem hsize hw
  refine ⟨rfl, fun k v' h => ?_⟩
  rcases Vfs.copyBytes_ret h with ⟨rfl, rfl⟩ | ⟨b, src, m, rfl, hsrc, hm, rfl⟩
  · exact ⟨_, rfl, rfl, fun _ _ _ _ i hi => absurd hi (Nat.not_lt_zero i)⟩
  · simp only [Function.update_self, Option.some.injEq] at hm
    dsimp only at hsrc
    rw [Function.update_of_ne (hold b rfl)] at hsrc
    refine ⟨m.copy src k, ?_, ?_, ?_⟩
    · simp only [Vfs.setBuf, Function.update_idem]
    · rw [← hm]
      rfl
    · intro d src' hd hsrc' i hi
      rw [Option.some.injEq] at hd
      subst hd
      rw [hsrc, Option.some.injEq] at hsrc'
      subst hsrc'
      exact if_pos hi

end Basics

/-! ## The moves -/

section Moves

variable {v v' : Vfs} {a : Nat} {n n' : Node}

/-- The state after work on the data of the node at `a`, which is its sole
holder and has become `n'`. -/
structure Worked (v v' : Vfs) (a : Nat) (n' : Node) : Prop where
  inv : BlobInv v'
  nodes : v'.nodes = v.nodes
  node : v'.node a = some n'
  sole : Sole v' a n'
  isolated : Isolated a v v'
  cells : ∀ c, v.cell c ≠ none → v'.cell c ≠ none

theorem Worked.trans {v'' : Vfs} {n' n'' : Node} (h : Worked v v' a n')
    (h' : Worked v' v'' a n'') : Worked v v'' a n'' :=
  ⟨h'.inv, h'.nodes.trans h.nodes, h'.node, h'.sole, h.isolated.trans h'.isolated,
    fun c hc => h'.cells c (h.cells c hc)⟩

theorem Worked.of_sole (hnodes : v'.nodes = v.nodes)
    (hnode : v'.node = Function.update v.node a (some n'))
    (h : BlobInv v' ∧ Sole v' a n' ∧ Isolated a v v')
    (hcells : ∀ c, v.cell c ≠ none → v'.cell c ≠ none) : Worked v v' a n' :=
  ⟨h.1, hnodes, by rw [hnode, Function.update_self], h.2.1, h.2.2, hcells⟩

theorem Worked.refl (h : BlobInv v) (hn : v.node a = some n) (hsole : Sole v a n) :
    Worked v v a n :=
  ⟨h, rfl, hn, hsole, .refl a v, fun _ hc => hc⟩

/-- What the other nodes point at is older than anything new. -/
theorem BlobInv.data_lt (h : BlobInv v) {d : Nat} (hn : v.node a = some n)
    (hd : n.data = some d) : d < v.nextObj := by
  obtain ⟨m, hm, _⟩ := h.held a n d hn hd
  exact lt_supply_of_buf h hm

theorem BlobInv.dataRefs_lt (h : BlobInv v) {c : Nat} (hn : v.node a = some n)
    (hc : n.dataRefs = some c) : c < v.nextObj :=
  lt_supply_of_cell h (h.counted.of_held (h.listed hn hc) ((counterOf_eq hn).trans hc)).1

/-- The pointers to counters after a store into the node at `a`. -/
theorem counterOf_update (hnode : v'.node = Function.update v.node a (some n')) :
    v'.counterOf = Function.update v.counterOf a n'.dataRefs := by
  funext x
  unfold Vfs.counterOf
  rw [hnode]
  by_cases hx : x = a
  · rw [hx, Function.update_self, Function.update_self, Option.bind_some]
  · rw [Function.update_of_ne hx, Function.update_of_ne hx]

/-- The node at `a` gets a blob that no other node knows of.  What is left
to show is about counters and buffers as a whole. -/
theorem BlobInv.of_sole (h : BlobInv v) (hnode : v'.node = Function.update v.node a (some n'))
    (hsole : ∀ b m, b ≠ a → v.node b = some m →
      (∀ d, n'.data = some d → m.data ≠ some d) ∧ ∀ c, n'.dataRefs = some c → m.dataRefs ≠ some c)
    (hbuf : ∀ b m d, b ≠ a → v.node b = some m → m.data = some d → v'.buf d = v.buf d)
    (hroom : n'.size ≤ n'.capacity) (hbare : n'.data = none → n'.capacity = 0)
    (hheld : ∀ d, n'.data = some d → ∃ m, v'.buf d = some m ∧ m.len = n'.capacity)
    (hmem : v'.mem = v.mem) (hcounted : Counted v'.nodes v'.counterOf v'.cell)
    (hunshared : ∀ x m, v'.node x = some m → x ∉ v'.nodes → m.dataRefs = none)
    (howned : ∀ d m, v'.buf d = some m → ∃ x mx, v'.node x = some mx ∧ mx.data = some d)
    (hfresh : ∀ d, v'.nextObj ≤ d → v'.buf d = none ∧ v'.cell d = none) :
    BlobInv v' ∧ Sole v' a n' ∧ Isolated a v v' := by
  have hother : ∀ {x m}, x ≠ a → v'.node x = some m → v.node x = some m := by
    intro x m hx hm
    rwa [hnode, Function.update_of_ne hx] at hm
  have hself : ∀ {m}, v'.node a = some m → m = n' := by
    intro m hm
    rw [hnode, Function.update_self, Option.some.injEq] at hm
    exact hm.symm
  refine ⟨⟨hmem ▸ h.allocs, hcounted, hunshared, ?_, ?_, ?_, ?_, ?_, howned, hfresh⟩,
    fun b m hb hm => hsole b m hb (hother hb hm), ?_⟩
  · intro x y mx my d hx hy hxy hdx hdy
    by_cases hxa : x = a
    · subst hxa
      rw [hself hx] at hdx
      exact absurd hdy ((hsole y my (Ne.symm hxy) (hother (Ne.symm hxy) hy)).1 d hdx)
    · by_cases hya : y = a
      · subst hya
        rw [hself hy] at hdy
        exact absurd hdx ((hsole x mx hxy (hother hxy hx)).1 d hdy)
      · exact h.apart x y mx my d (hother hxa hx) (hother hya hy) hxy hdx hdy
  · intro x y mx my e hx hy hex hey
    by_cases hxa : x = a
    · by_cases hya : y = a
      · subst hxa hya
        rw [hself hx, hself hy]
      · subst hxa
        rw [hself hx] at hex
        exact absurd hey ((hsole y my hya (hother hya hy)).2 e hex)
    · by_cases hya : y = a
      · subst hya
        rw [hself hy] at hey
        exact absurd hex ((hsole x mx hxa (hother hxa hx)).2 e hey)
      · exact h.agree x y mx my e (hother hxa hx) (hother hya hy) hex hey
  · intro x m hm
    by_cases hxa : x = a
    · subst hxa
      exact hself hm ▸ hroom
    · exact h.room x m (hother hxa hm)
  · intro x m hm hd
    by_cases hxa : x = a
    · subst hxa
      rw [hself hm] at hd ⊢
      exact hbare hd
    · exact h.bare x m (hother hxa hm) hd
  · intro x m d hm hd
    by_cases hxa : x = a
    · subst hxa
      rw [hself hm] at hd ⊢
      exact hheld d hd
    · obtain ⟨mb, hmb, hlen⟩ := h.held x m d (hother hxa hm) hd
      exact ⟨mb, (hbuf x m d hxa (hother hxa hm) hd).trans hmb, hlen⟩
  · intro x m hx hm
    exact ⟨by rw [hnode, Function.update_of_ne hx, hm], fun d hd => hbuf x m d hx hm hd⟩

/-- What `OwnData` says about the buffers. -/
theorem OwnData.spec (hown : OwnData v v' n') :
    (∀ d, d < v.nextObj → v'.buf d = v.buf d) ∧ (∀ d, n'.data = some d → v.nextObj ≤ d) ∧
      (n'.data = none → n'.capacity = 0) ∧
      (∀ d, n'.data = some d → ∃ m, v'.buf d = some m ∧ m.len = n'.capacity) ∧
      (∀ d, v.nextObj ≤ d → n'.data ≠ some d → v'.buf d = v.buf d) ∧
      ∀ d, v'.nextObj ≤ d → n'.data ≠ some d := by
  rcases hown with ⟨hnone, hz, hb⟩ | ⟨b, m, hb, hlo, hhi, hlen, hupd⟩
  · rw [hnone, hb]
    exact ⟨fun _ _ => rfl, fun _ hd => (by cases hd), fun _ => hz, fun _ hd => (by cases hd),
      fun _ _ _ => rfl, fun _ _ hd => (by cases hd)⟩
  · rw [hb, hupd]
    refine ⟨fun d hd => ?_, fun d hd => ?_, fun hd => (by cases hd), fun d hd => ?_,
      fun d _ hd => ?_, fun d hd hbd => ?_⟩
    · exact Function.update_of_ne (Nat.ne_of_lt (Nat.lt_of_lt_of_le hd hlo)) _ _
    · exact Option.some.inj hd ▸ hlo
    · rw [← Option.some.inj hd]
      exact ⟨m, Function.update_self _ _ _, hlen⟩
    · exact Function.update_of_ne (fun hdb => hd (congrArg some hdb.symm)) _ _
    · rw [Option.some.inj hbd] at hhi
      exact absurd hhi (Nat.not_lt.mpr hd)

/-- A shared node takes a copy of its own: its buffer and its counter are
new, and the other holders keep the old ones. -/
theorem BlobInv.detach (h : BlobInv v) (hnd : v.nodes.Nodup) {c c' : Nat} {k : Int}
    (hn : v.node a = some n) (hc : n.dataRefs = some c) (hk : v.cell c = some k) (htwo : 2 ≤ k)
    (hnodes : v'.nodes = v.nodes) (hnode : v'.node = Function.update v.node a (some n'))
    (hn' : n'.size = n.size ∧ n'.capacity = n.capacity ∧ n'.dataRefs = some c')
    (hc' : v.nextObj ≤ c' ∧ c' < v'.nextObj) (hown : OwnData v v' n')
    (hcell : v'.cell = Function.update (Function.update v.cell c (some (k - 1))) c' (some 1))
    (hmem : v'.mem = v.mem) : Worked v v' a n' := by
  obtain ⟨hsize, hcap, hrefs⟩ := hn'
  have ha : a ∈ v.nodes := h.listed hn hc
  obtain ⟨hbuf, hnew, hbare, hheld, hold, hlast⟩ := hown.spec
  have hsup : v.nextObj ≤ v'.nextObj := Nat.le_of_lt (Nat.lt_of_le_of_lt hc'.1 hc'.2)
  refine .of_sole hnodes hnode (h.of_sole hnode ?_ (fun b m d _ hm hd => hbuf d (h.data_lt hm hd))
    ?_ hbare hheld hmem ?_ ?_ ?_ ?_) ?_
  · refine fun b m hb hm => ⟨fun d hd hmd => ?_, fun e he hme => ?_⟩
    · exact absurd (h.data_lt hm hmd) (Nat.not_lt.mpr (hnew d hd))
    · rw [hrefs, Option.some.injEq] at he
      subst he
      exact absurd (h.dataRefs_lt hm hme) (Nat.not_lt.mpr hc'.1)
  · rw [hsize, hcap]
    exact h.room a n hn
  · -- one holder less for `c`, the first for `c'`
    rw [hnodes, counterOf_update hnode, hrefs, hcell]
    have hrel := h.counted.release hnd ha ((counterOf_eq hn).trans hc) hk
    rw [if_neg (by omega)] at hrel
    have hfree : Function.update v.cell c (some (k - 1)) c' = none := by
      rw [Function.update_of_ne, (h.fresh c' hc'.1).2]
      exact Nat.ne_of_gt (Nat.lt_of_lt_of_le (lt_supply_of_cell h hk) hc'.1)
    have hret := hrel.retain hnd ha (Function.update_self _ _ _) (o := c') (k := 0)
      (by rw [hrel.not_held hfree]; rfl)
    rw [Function.update_idem] at hret
    exact hret
  · intro x m hm hx
    have hxa : x ≠ a := fun e => hx (hnodes ▸ e ▸ ha)
    rw [hnode, Function.update_of_ne hxa] at hm
    exact h.unshared x m hm (hnodes ▸ hx)
  · intro d m hm
    by_cases hd : n'.data = some d
    · exact ⟨a, n', by rw [hnode, Function.update_self], hd⟩
    have hmd : v.buf d = some m := by
      by_cases hlt : d < v.nextObj
      · rwa [hbuf d hlt] at hm
      · rwa [hold d (Nat.le_of_not_lt hlt) hd] at hm
    obtain ⟨x, mx, hx, hxd⟩ := h.owned d m hmd
    by_cases hxa : x = a
    · -- the old buffer of the node: another holder of `c` has it too
      subst hxa
      rw [hn, Option.some.injEq] at hx
      subst hx
      have hcount := (counter_eq_some ((h.counted c).symm.trans hk)).1
      obtain ⟨y, hy, hyx, hyc⟩ := exists_other_holder hnd v.counterOf (o := c)
        (by omega) ha
      obtain ⟨my, hmy, hmyc⟩ := Option.bind_eq_some_iff.mp hyc
      have hag := h.agree y x my n c hmy hn hmyc hc
      exact ⟨y, my, by rw [hnode, Function.update_of_ne hyx, hmy],
        (congrArg Blob.data hag).trans hxd⟩
    · exact ⟨x, mx, by rw [hnode, Function.update_of_ne hxa, hx], hxd⟩
  · intro d hd
    have hd' := h.fresh d (Nat.le_trans hsup hd)
    refine ⟨(hold d (Nat.le_trans hsup hd) (hlast d hd)).trans hd'.1, ?_⟩
    have hck : d ≠ c := Nat.ne_of_gt (Nat.lt_of_lt_of_le (lt_supply_of_cell h hk)
      (Nat.le_trans hsup hd))
    rw [hcell, Function.update_of_ne (Nat.ne_of_gt (Nat.lt_of_lt_of_le hc'.2 hd)),
      Function.update_of_ne hck]
    exact hd'.2
  · intro e he
    rw [hcell]
    simp only [Function.update_apply]
    split
    · simp
    · split
      · simp
      · exact he

/-- The sole holder of its blob changes it: it takes another buffer, or
other bytes, or another size. -/
theorem BlobInv.replace (h : BlobInv v) (hn : v.node a = some n) (hsole : Sole v a n)
    (hnodes : v'.nodes = v.nodes) (hnode : v'.node = Function.update v.node a (some n'))
    (hrefs : n'.dataRefs = n.dataRefs) (hcell : v'.cell = v.cell) (hmem : v'.mem = v.mem)
    (hsup : v.nextObj ≤ v'.nextObj) (hroom : n'.size ≤ n'.capacity)
    (hbare : n'.data = none → n'.capacity = 0)
    (hheld : ∀ d, n'.data = some d → ∃ m, v'.buf d = some m ∧ m.len = n'.capacity)
    (hnew : ∀ d, n'.data = some d → n.data = some d ∨ v.nextObj ≤ d ∧ d < v'.nextObj)
    (hgone : ∀ d, n.data = some d → n'.data ≠ some d → v'.buf d = none)
    (hbuf : ∀ d, n.data ≠ some d → n'.data ≠ some d → v'.buf d = v.buf d) :
    Worked v v' a n' := by
  have hapart : ∀ b m d, b ≠ a → v.node b = some m → n'.data = some d → m.data ≠ some d := by
    intro b m d hb hm hd hmd
    rcases hnew d hd with hd | hd
    · exact (hsole b m hb hm).1 d hd hmd
    · exact absurd (h.data_lt hm hmd) (Nat.not_lt.mpr hd.1)
  refine .of_sole hnodes hnode (h.of_sole hnode ?_ ?_ hroom hbare hheld hmem ?_ ?_ ?_ ?_)
    fun _ hc => hcell ▸ hc
  · refine fun b m hb hm => ⟨fun d hd => hapart b m d hb hm hd, fun c hc => ?_⟩
    exact (hsole b m hb hm).2 c (hrefs ▸ hc)
  · intro b m d hb hm hmd
    exact hbuf d (fun hd => (hsole b m hb hm).1 d hd hmd) fun hd => hapart b m d hb hm hd hmd
  · rw [hnodes, hcell, counterOf_update hnode, hrefs, ← counterOf_eq hn, Function.update_eq_self]
    exact h.counted
  · intro x m hm hx
    by_cases hxa : x = a
    · subst hxa
      rw [hnode, Function.update_self, Option.some.injEq] at hm
      rw [← hm, hrefs]
      exact h.unshared x n hn (hnodes ▸ hx)
    · rw [hnode, Function.update_of_ne hxa] at hm
      exact h.unshared x m hm (hnodes ▸ hx)
  · intro d m hm
    by_cases hd : n'.data = some d
    · exact ⟨a, n', by rw [hnode, Function.update_self], hd⟩
    by_cases hd' : n.data = some d
    · rw [hgone d hd' hd] at hm
      cases hm
    rw [hbuf d hd' hd] at hm
    obtain ⟨x, mx, hx, hxd⟩ := h.owned d m hm
    have hxa : x ≠ a := by
      rintro rfl
      rw [hn, Option.some.injEq] at hx
      exact hd' (hx ▸ hxd)
    exact ⟨x, mx, by rw [hnode, Function.update_of_ne hxa, hx], hxd⟩
  · intro d hd
    have hd' := h.fresh d (Nat.le_trans hsup hd)
    refine ⟨?_, hcell ▸ hd'.2⟩
    have hnd : n.data ≠ some d := fun he =>
      absurd (h.data_lt hn he) (Nat.not_lt.mpr (Nat.le_trans hsup hd))
    have hnd' : n'.data ≠ some d := by
      intro he
      rcases hnew d he with he | he
      · exact hnd he
      · exact absurd he.2 (Nat.not_lt.mpr hd)
    exact (hbuf d hnd hnd').trans hd'.1

end Moves

/-! ## What the functions on data do -/

section Functions

variable {v v' : Vfs} {a : Nat} {n : Node}

/-- The new buffer of `data_cow`. -/
theorem cowCopy_spec {copied : Option (Option Nat)} (hmem : ∀ i, v.mem.outcome i ≠ .null)
    (hold : ∀ d, n.data = some d → d < v.nextObj) (hw : cowCopy v n = .ret (v', copied)) :
    (n.capacity = 0 ∧ v' = v ∧ copied = some none) ∨
      ∃ m, copied = some (some v.nextObj) ∧ CopyOf v v' n.data n.capacity n.size m := by
  unfold cowCopy at hw
  split at hw
  · rename_i hcap
    obtain ⟨⟨w, p⟩, hp, hw⟩ := Exec.bind_eq_ret.mp hw
    obtain ⟨rfl, hcopy⟩ := copyOf_block hmem (Nat.pos_iff_ne_zero.mp hcap)
      (fun d hd => Nat.ne_of_lt (hold d hd)) hp
    obtain ⟨u, hu, hw⟩ := Exec.bind_eq_ret.mp hw
    cases hw
    obtain ⟨m, hm⟩ := hcopy _ _ hu
    exact .inr ⟨m, rfl, hm⟩
  · rename_i hcap
    cases hw
    exact .inl ⟨Nat.eq_zero_of_not_pos hcap, rfl, rfl⟩

/-- The copy `data_cow` makes for a node whose blob has `k ≥ 2` holders. -/
theorem detach_spec {c : Nat} {k : Int} {w : Vfs} {copied : Option (Option Nat)}
    (h : BlobInv v) (hnd : v.nodes.Nodup) (hn : v.node a = some n)
    (hc : n.dataRefs = some c) (hk : v.cell c = some k) (htwo : 2 ≤ k)
    (hcopy : cowCopy (v.setCell c (k - 1)) n = .ret (w, copied)) :
    ∃ data, copied = some data ∧ ∀ u q, w.kmalloc 4 = .ret (u, q) →
      ∃ c', q = some c' ∧
        Worked v ((u.setCell c' 1).setNode a { n with data := data, dataRefs := some c' }) a
          { n with data := data, dataRefs := some c' } ∧
        ∀ i, i < n.size →
          ((u.setCell c' 1).setNode a { n with data := data, dataRefs := some c' }).byte
            { n with data := data, dataRefs := some c' } i = v.byte n i := by
  rcases cowCopy_spec (v := v.setCell c (k - 1)) h.allocs (fun d hd => h.data_lt hn hd) hcopy with
    ⟨hcap, rfl, rfl⟩ | ⟨m, rfl, hm⟩
  · -- nothing to copy
    refine ⟨none, rfl, fun u q hu => ?_⟩
    obtain ⟨rfl, rfl⟩ := Vfs.kmalloc_block (v := v.setCell c (k - 1)) h.allocs (by decide) hu
    refine ⟨v.nextObj, rfl, ?_, fun i hi => ?_⟩
    · exact h.detach hnd hn hc hk htwo rfl rfl ⟨rfl, rfl, rfl⟩ ⟨Nat.le_refl _, Nat.lt_succ_self _⟩
        (.inl ⟨rfl, hcap, rfl⟩) rfl rfl
    have hroom := h.room a n hn
    omega
  · refine ⟨some v.nextObj, rfl, fun u q hu => ?_⟩
    have hw := hm.eq
    have hmem : ∀ i, w.mem.outcome i ≠ .null := hw ▸ h.allocs
    obtain ⟨rfl, rfl⟩ := Vfs.kmalloc_block hmem (by decide) hu
    subst hw
    refine ⟨v.nextObj + 1, rfl, ?_, fun i hi => ?_⟩
    · exact h.detach hnd hn hc hk htwo rfl rfl ⟨rfl, rfl, rfl⟩ ⟨Nat.le_succ _, Nat.lt_succ_self _⟩
        (.inr ⟨v.nextObj, m, rfl, Nat.le_refl _, Nat.lt_succ_of_lt (Nat.lt_succ_self _), hm.len,
          rfl⟩) rfl rfl
    have hroom := h.room a n hn
    cases hd : n.data with
    | none =>
        have hz := h.bare a n hn hd
        omega
    | some d =>
        obtain ⟨src, hsrc, _⟩ := h.held a n d hn hd
        rw [byte_eq hd hsrc, ← hm.bytes d src hd hsrc i hi]
        exact byte_eq rfl (Function.update_self _ _ _)

/-- The node `n` of `v` and the node `n'` of `v'` are the same file, with the
same contents. -/
structure SameFile (v v' : Vfs) (n n' : Node) : Prop where
  label : n'.toLabel = n.toLabel
  size : n'.size = n.size
  bytes : ∀ i, i < n.size → v'.byte n' i = v.byte n i

theorem SameFile.refl (v : Vfs) (n : Node) : SameFile v v n n := ⟨rfl, rfl, fun _ _ => rfl⟩

theorem SameFile.trans {v'' : Vfs} {n' n'' : Node} (h : SameFile v v' n n')
    (h' : SameFile v' v'' n' n'') : SameFile v v'' n n'' :=
  ⟨h'.label.trans h.label, h'.size.trans h.size, fun i hi =>
    (h'.bytes i (h.size ▸ hi)).trans (h.bytes i hi)⟩

/-- After `data_cow` the node is the sole holder of its bytes, which are the
same. -/
theorem dataCow_spec {ret : Int} (h : BlobInv v) (hnd : v.nodes.Nodup) (hn : v.node a = some n)
    (hw : dataCow v a = .ret (v', ret)) :
    ret = 0 ∧ ∃ n', Worked v v' a n' ∧ SameFile v v' n n' := by
  rw [dataCow, Exec.bind_eq_ret] at hw
  obtain ⟨n₀, hn₀, hw⟩ := hw
  obtain rfl : n = n₀ := Option.some.inj (hn.symm.trans (Vfs.load_ret hn₀))
  split at hw
  · rename_i hrefs
    cases hw
    refine ⟨rfl, n, .refl h hn (h.sole hn fun c k hc => ?_), .refl v n⟩
    rw [hrefs] at hc
    cases hc
  · rename_i c hc
    rw [Exec.bind_eq_ret] at hw
    obtain ⟨k, hk, hw⟩ := hw
    replace hk := Vfs.loadCell_ret hk
    split at hw
    · rename_i hle
      cases hw
      refine ⟨rfl, n, .refl h hn (h.sole hn fun e l he hl => ?_), .refl v n⟩
      rw [hc, Option.some.injEq] at he
      rw [← he, hk, Option.some.injEq] at hl
      exact hl ▸ hle
    · rename_i hgt
      rw [Exec.bind_eq_ret] at hw
      obtain ⟨⟨w, copied⟩, hcopy, hw⟩ := hw
      obtain ⟨data, rfl, hspec⟩ := detach_spec h hnd hn hc hk (by omega) hcopy
      dsimp only at hw
      rw [Exec.bind_eq_ret] at hw
      obtain ⟨⟨u, q⟩, hu, hw⟩ := hw
      obtain ⟨c', rfl, hworked, hbytes⟩ := hspec u q hu
      cases hw
      exact ⟨rfl, _, hworked, rfl, rfl, hbytes⟩

/-- The doubling ends with room for what is required. -/
theorem le_of_growLoop {fuel capacity required k : Nat}
    (h : growLoop fuel capacity required = some k) : required ≤ k := by
  induction fuel generalizing capacity with
  | zero => cases h
  | succ fuel ih =>
      rw [growLoop] at h
      split at h
      · exact ih h
      · rename_i hge
        cases h
        exact Nat.le_of_not_lt hge

theorem dropBuf_of_ne {buf : Nat → Option Buf} {data : Option Nat} {d : Nat}
    (h : data ≠ some d) : dropBuf buf data d = buf d := by
  cases data with
  | none => rfl
  | some b => exact Function.update_of_ne (fun hd => h (congrArg some hd.symm)) _ _

theorem dropBuf_self {buf : Nat → Option Buf} (d : Nat) : dropBuf buf (some d) d = none :=
  Function.update_self _ _ _

/-- Growing moves the bytes of the sole holder to a larger buffer. -/
theorem growData_spec {required : Nat} {ret : Int} (h : BlobInv v) (hn : v.node a = some n)
    (hsole : Sole v a n) (hw : growData v a required = .ret (v', ret)) :
    ret = 0 ∧ ∃ n', Worked v v' a n' ∧ SameFile v v' n n' ∧ required ≤ n'.capacity := by
  rw [growData, Exec.bind_eq_ret] at hw
  obtain ⟨n₀, hn₀, hw⟩ := hw
  obtain rfl : n = n₀ := Option.some.inj (hn.symm.trans (Vfs.load_ret hn₀))
  split at hw
  · rename_i hgt
    split at hw
    · cases hw
    rename_i capacity hloop
    have hle := le_of_growLoop hloop
    rw [Exec.bind_eq_ret] at hw
    obtain ⟨⟨w, p⟩, hp, hw⟩ := hw
    have hold : ∀ d, n.data = some d → d ≠ v.nextObj := fun d hd => Nat.ne_of_lt (h.data_lt hn hd)
    have hpos : capacity ≠ 0 := Nat.ne_of_gt (Nat.lt_of_lt_of_le (Nat.zero_lt_of_lt hgt) hle)
    obtain ⟨rfl, hcopy⟩ := copyOf_block h.allocs hpos hold hp
    dsimp only at hw
    rw [Exec.bind_eq_ret] at hw
    obtain ⟨u, hu, hw⟩ := hw
    obtain ⟨m, hm⟩ := hcopy _ _ hu
    have hueq := hm.eq
    have hmb : (u.freeBuf n.data).buf v.nextObj = some m := by
      rw [Vfs.freeBuf_buf, dropBuf_of_ne (fun hd => hold _ hd rfl), hueq]
      exact Function.update_self _ _ _
    subst hueq
    cases hw
    refine ⟨rfl, { n with data := some v.nextObj, capacity := capacity }, ?_,
      ⟨rfl, rfl, fun i hi => ?_⟩, hle⟩
    · refine h.replace hn hsole ?_ ?_ rfl ?_ ?_ ?_ ?_ ?_ ?_ ?_ ?_ ?_
      · simp [Vfs.setNode]
      · simp [Vfs.setNode]
      · simp [Vfs.setNode]
      · simp [Vfs.setNode]
      · simp [Vfs.setNode]
      · exact Nat.le_trans (h.room a n hn) (Nat.le_of_lt (Nat.lt_of_lt_of_le hgt hle))
      · intro hd
        cases hd
      · intro d hd
        cases hd
        exact ⟨m, hmb, hm.len⟩
      · intro d hd
        cases hd
        exact .inr ⟨Nat.le_refl _, by simp [Vfs.setNode]⟩
      · intro d hd _
        simp only [Vfs.setNode, Vfs.freeBuf_buf]
        rw [hd, dropBuf_self]
      · intro d hd hd'
        simp only [Vfs.setNode, Vfs.freeBuf_buf]
        rw [dropBuf_of_ne hd, Function.update_of_ne fun he => hd' (congrArg some he.symm)]
    · cases hd : n.data with
      | none =>
          have hroom := h.room a n hn
          rw [h.bare a n hn hd] at hroom
          exact absurd hi (Nat.not_lt.mpr (Nat.le_trans hroom (Nat.zero_le i)))
      | some d =>
          obtain ⟨src, hsrc, _⟩ := h.held a n d hn hd
          rw [byte_eq hd hsrc, ← hm.bytes d src hd hsrc i hi]
          rw [hd] at hmb
          exact byte_eq rfl hmb
  · rename_i hle
    cases hw
    exact ⟨rfl, n, .refl h hn hsole, .refl v n, Nat.le_of_not_lt hle⟩

/-- The bytes of the buffer `data` points at become those of `f`, which
agrees with the old ones outside `[lo, hi)`. -/
structure Poked (v v' : Vfs) (data : Option Nat) (lo hi : Nat) (f : Nat → UInt8) : Prop where
  state : v' = v ∨ ∃ d m m', data = some d ∧ v.buf d = some m ∧ m'.len = m.len ∧
    v' = v.setBuf d m'
  bytes : ∀ (n : Node) i, n.data = data →
    v'.byte n i = if lo ≤ i ∧ i < hi then f i else v.byte n i

theorem Poked.refl (v : Vfs) (data : Option Nat) : Poked v v data 0 0 fun _ => 0 :=
  ⟨.inl rfl, fun _ i _ => (if_neg fun h => Nat.not_lt_zero i h.2).symm⟩

theorem storeBytes_poked {w : Vfs} {data : Option Nat} {offset : Nat} {src : List UInt8}
    (hw : v.storeBytes data offset src = .ret w) :
    Poked v w data offset (offset + src.length) fun i => (src[i - offset]?).getD 0 := by
  unfold Vfs.storeBytes at hw
  split at hw
  · rename_i hnil
    subst hnil
    cases hw
    refine ⟨.inl rfl, fun n i _ => ?_⟩
    rw [if_neg]
    simp only [List.length_nil]
    omega
  · cases data with
    | none => cases hw
    | some d =>
        dsimp only at hw
        rw [Exec.bind_eq_ret] at hw
        obtain ⟨m, hm, hw⟩ := hw
        replace hm := Vfs.loadBuf_ret hm
        split at hw
        · cases hw
          refine ⟨.inr ⟨d, m, m.write offset src, rfl, hm, rfl, rfl⟩, fun n i hd => ?_⟩
          rw [byte_eq hd hm, byte_eq hd (Function.update_self _ _ _)]
          simp only [Buf.write]
          by_cases hlo : offset ≤ i
          · by_cases hhi : i < offset + src.length
            · have hget : i - offset < src.length := by omega
              rw [if_pos hlo, if_pos ⟨hlo, hhi⟩, List.getElem?_eq_getElem hget]
              rfl
            · rw [if_pos hlo, if_neg fun h => hhi h.2, List.getElem?_eq_none (by omega)]
              rfl
          · rw [if_neg hlo, if_neg fun h => hlo h.1]
        · cases hw

theorem zeroBytes_poked {w : Vfs} {data : Option Nat} {first last : Nat}
    (hw : v.zeroBytes data first last = .ret w) : Poked v w data first last fun _ => 0 := by
  unfold Vfs.zeroBytes at hw
  split at hw
  · rename_i hle
    cases hw
    refine ⟨.inl rfl, fun n i _ => ?_⟩
    rw [if_neg]
    omega
  · cases data with
    | none => cases hw
    | some d =>
        dsimp only at hw
        rw [Exec.bind_eq_ret] at hw
        obtain ⟨m, hm, hw⟩ := hw
        replace hm := Vfs.loadBuf_ret hm
        split at hw
        · cases hw
          refine ⟨.inr ⟨d, m, m.zero first last, rfl, hm, rfl, rfl⟩, fun n i hd => ?_⟩
          rw [byte_eq hd hm, byte_eq hd (Function.update_self _ _ _)]
          rfl
        · cases hw

/-- The sole holder stores bytes and sets its size. -/
theorem worked_of_poked {w : Vfs} {size lo hi : Nat} {f : Nat → UInt8} (h : BlobInv v)
    (hn : v.node a = some n) (hsole : Sole v a n) (hp : Poked v w n.data lo hi f)
    (hsize : size ≤ n.capacity) :
    Worked v (w.setNode a { n with size := size }) a { n with size := size } := by
  rcases hp.state with rfl | ⟨d, m, m', hd, hm, hlen, rfl⟩
  · exact h.replace hn hsole rfl rfl rfl rfl rfl (Nat.le_refl _) hsize (h.bare a n hn)
      (fun d hd => h.held a n d hn hd) (fun d hd => .inl hd) (fun d hd hd' => absurd hd hd')
      fun _ _ _ => rfl
  · refine h.replace hn hsole rfl rfl rfl rfl rfl (Nat.le_refl _) hsize (h.bare a n hn) ?_
      (fun d hd => .inl hd) (fun d hd hd' => absurd hd hd') ?_
    · intro e he
      obtain ⟨m₀, hm₀, hcap⟩ := h.held a n d hn hd
      obtain rfl : d = e := Option.some.inj (hd.symm.trans he)
      obtain rfl : m₀ = m := Option.some.inj (hm₀.symm.trans hm)
      exact ⟨m', Function.update_self _ _ _, hlen.trans hcap⟩
    · intro e he _
      exact Function.update_of_ne (fun hed : e = d => he (hed ▸ hd)) _ _

/-- A write that reaches the data: the size covers it, the bytes written are
those of the buffer and the others are kept. -/
structure Written (v v' : Vfs) (n n' : Node) (offset : Nat) (buffer : List UInt8) : Prop where
  label : n'.toLabel = n.toLabel
  size : n'.size = max n.size (u32 (offset + buffer.length))
  bytes : ∀ i, i < n.size ∨ offset ≤ i ∧ i < offset + buffer.length →
    v'.byte n' i = if offset ≤ i ∧ i < offset + buffer.length then (buffer[i - offset]?).getD 0
      else v.byte n i

theorem writeData_spec {offset : Nat} {buffer : List UInt8} {ret : Int} (h : BlobInv v)
    (hnd : v.nodes.Nodup) (hn : v.node a = some n)
    (hw : writeData v a offset buffer = .ret (v', ret)) :
    ∃ n', Worked v v' a n' ∧
      (u32 (offset + buffer.length) < offset ∧ ret = -1 ∧ SameFile v v' n n' ∨
        offset ≤ u32 (offset + buffer.length) ∧ ret = int32 buffer.length ∧
          Written v v' n n' offset buffer) := by
  rw [writeData, Exec.bind_eq_ret] at hw
  obtain ⟨⟨v₁, r₁⟩, h₁, hw⟩ := hw
  obtain ⟨rfl, n₁, hw₁, hs₁⟩ := dataCow_spec h hnd hn h₁
  dsimp only at hw
  rw [if_neg (by decide), Exec.bind_eq_ret] at hw
  obtain ⟨⟨v₂, r₂⟩, h₂, hw⟩ := hw
  obtain ⟨rfl, n₂, hw₂, hs₂⟩ := dataCow_spec hw₁.inv (hw₁.nodes ▸ hnd) hw₁.node h₂
  have hwork := hw₁.trans hw₂
  have hsame := hs₁.trans hs₂
  dsimp only at hw
  rw [if_neg (by decide)] at hw
  split at hw
  · rename_i hwrap
    cases hw
    exact ⟨n₂, hwork, .inl ⟨hwrap, rfl, hsame⟩⟩
  rename_i hfits
  rw [Exec.bind_eq_ret] at hw
  obtain ⟨⟨v₃, r₃⟩, h₃, hw⟩ := hw
  obtain ⟨rfl, n₃, hw₃, hs₃, hcap⟩ := growData_spec hwork.inv hwork.node hwork.sole h₃
  replace hwork := hwork.trans hw₃
  replace hsame := hsame.trans hs₃
  dsimp only at hw
  rw [if_neg (by decide), Exec.bind_eq_ret] at hw
  obtain ⟨n₀, hn₀, hw⟩ := hw
  obtain rfl : n₃ = n₀ := Option.some.inj (hwork.node.symm.trans (Vfs.load_ret hn₀))
  rw [Exec.bind_eq_ret] at hw
  obtain ⟨v₄, h₄, hw⟩ := hw
  have hpoke := storeBytes_poked h₄
  have hv' : v' = v₄.setNode a { n₃ with size := max n₃.size (u32 (offset + buffer.length)) } ∧
      ret = int32 buffer.length := by
    cases hw
    refine ⟨?_, rfl⟩
    split
    · rename_i hgt
      rw [Nat.max_eq_right (Nat.le_of_lt hgt)]
    · rename_i hle
      rw [Nat.max_eq_left (Nat.le_of_not_lt hle)]
      -- the size stays, and so does the node
      have hnode : v₄.node a = some n₃ := by
        rcases hpoke.state with rfl | ⟨_, _, _, _, _, _, rfl⟩ <;> exact hwork.node
      simp only [Vfs.setNode, ← hnode, Function.update_eq_self]
  obtain ⟨rfl, rfl⟩ := hv'
  refine ⟨_, hwork.trans (worked_of_poked hwork.inv hwork.node hwork.sole hpoke
    (Nat.max_le.mpr ⟨hwork.inv.room a n₃ hwork.node, hcap⟩)),
    .inr ⟨Nat.le_of_not_lt hfits, rfl, hsame.label, ?_, fun i hi => ?_⟩⟩
  · rw [← hsame.size]
  · refine (hpoke.bytes n₃ i rfl).trans ?_
    split
    · rfl
    · rename_i hout
      exact hsame.bytes i (hi.resolve_right hout)

theorem vfsWrite_spec {offset : Nat} {buffer : List UInt8} {ret : Int} (h : BlobInv v)
    (hnd : v.nodes.Nodup) (hw : vfsWrite v a offset buffer = .ret (v', ret)) :
    (∃ fb, v' = { v with fb := fb }) ∨ ∃ n n', v.node a = some n ∧ Worked v v' a n' := by
  rw [vfsWrite, Exec.bind_eq_ret] at hw
  obtain ⟨n, hn, hw⟩ := hw
  repeat' split at hw
  all_goals first
    | cases hw; exact .inl ⟨_, rfl⟩
    | obtain ⟨n', hwork, _⟩ := writeData_spec h hnd (Vfs.load_ret hn) hw
      exact .inr ⟨n, n', Vfs.load_ret hn, hwork⟩

/-- A truncation: what is cut is gone, what is added is zero. -/
structure Truncated (v v' : Vfs) (n n' : Node) (length : Nat) : Prop where
  label : n'.toLabel = n.toLabel
  size : n'.size = length
  bytes : ∀ i, i < length → v'.byte n' i = if i < n.size then v.byte n i else 0

theorem vfsTruncate_spec {length : Nat} {ret : Int} (h : BlobInv v) (hnd : v.nodes.Nodup)
    (hn : v.node a = some n) (hw : vfsTruncate v a length = .ret (v', ret)) :
    (ret = -1 ∧ v' = v ∧ (n.dirBit = true ∨ isSymlinkNode n = true ∨ n.synth = true)) ∨
      (ret = 0 ∧ ∃ n', Worked v v' a n' ∧ Truncated v v' n n' length) := by
  rw [vfsTruncate, Exec.bind_eq_ret] at hw
  obtain ⟨n₀, hn₀, hw⟩ := hw
  obtain rfl : n = n₀ := Option.some.inj (hn.symm.trans (Vfs.load_ret hn₀))
  split at hw
  · rename_i hkind
    cases hw
    exact .inl ⟨rfl, rfl, hkind.imp id .inl⟩
  split at hw
  · rename_i hsynth
    cases hw
    exact .inl ⟨rfl, rfl, .inr (.inr hsynth)⟩
  rw [Exec.bind_eq_ret] at hw
  obtain ⟨⟨v₁, r₁⟩, h₁, hw⟩ := hw
  obtain ⟨rfl, n₁, hw₁, hs₁⟩ := dataCow_spec h hnd hn h₁
  dsimp only at hw
  rw [if_neg (by decide), Exec.bind_eq_ret] at hw
  obtain ⟨n₀, hn₀, hw⟩ := hw
  obtain rfl : n₁ = n₀ := Option.some.inj (hw₁.node.symm.trans (Vfs.load_ret hn₀))
  have hroom := hw₁.inv.room a n₁ hw₁.node
  split at hw
  · rename_i hlt
    cases hw
    refine .inr ⟨rfl, _, hw₁.trans (worked_of_poked hw₁.inv hw₁.node hw₁.sole
      (.refl v₁ n₁.data) (Nat.le_trans (Nat.le_of_lt hlt) hroom)),
      hs₁.label, rfl, fun i hi => ?_⟩
    have hin : i < n.size := hs₁.size ▸ Nat.lt_trans hi hlt
    rw [if_pos hin]
    exact hs₁.bytes i hin
  split at hw
  · rename_i heq
    cases hw
    refine .inr ⟨rfl, n₁, hw₁, hs₁.label, heq.symm, fun i hi => ?_⟩
    have hin : i < n.size := hs₁.size ▸ heq ▸ hi
    rw [if_pos hin]
    exact hs₁.bytes i hin
  rename_i hge hne
  rw [Exec.bind_eq_ret] at hw
  obtain ⟨⟨v₂, r₂⟩, h₂, hw⟩ := hw
  obtain ⟨rfl, n₂, hw₂, hs₂, hcap⟩ := growData_spec hw₁.inv hw₁.node hw₁.sole h₂
  have hwork := hw₁.trans hw₂
  have hsame := hs₁.trans hs₂
  dsimp only at hw
  rw [if_neg (by decide), Exec.bind_eq_ret] at hw
  obtain ⟨n₀, hn₀, hw⟩ := hw
  obtain rfl : n₂ = n₀ := Option.some.inj (hwork.node.symm.trans (Vfs.load_ret hn₀))
  rw [Exec.bind_eq_ret] at hw
  obtain ⟨v₃, h₃, hw⟩ := hw
  have hpoke := zeroBytes_poked h₃
  cases hw
  refine .inr ⟨rfl, _, hwork.trans (worked_of_poked hwork.inv hwork.node hwork.sole hpoke hcap),
    hsame.label, rfl, fun i hi => (hpoke.bytes n₂ i rfl).trans ?_⟩
  by_cases hin : i < n.size
  · rw [if_pos hin, if_neg fun hout => absurd (hsame.size ▸ hin) (Nat.not_lt.mpr hout.1)]
    exact hsame.bytes i hin
  · rw [if_neg hin, if_pos ⟨hsame.size ▸ Nat.le_of_not_lt hin, hi⟩]

end Functions

end LiteBSD
