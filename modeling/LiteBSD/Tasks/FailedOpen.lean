/-
# `LiteBSD.Tasks.FailedOpen` — what `sys_open` leaves behind when it returns -1

`vfs_open` makes the node, and `vfs_truncate` empties it, before `sys_open` has
a file and a descriptor.  Where one of the two is not to be had, `vfs_close`
counts the node down, and that is all: it takes back an entry of `/proc`, which
was made for this call, but not a new file, and not the data of an old one.

So a failed call leaves everything alone (`LeftAlone`) unless it got as far as
to create or to truncate.  `O_TRUNC` does something to a file that has data, and
to one whose blob is shared, which gets a blob of its own if the blocks for it
can be had (`data_cow`; without them only the counter of the old blob is wrong,
which no file shows).
-/
import LiteBSD.Files.Opening
import LiteBSD.Tasks.Charges

namespace LiteBSD

/-- The two blocks of `data_cow`, for the copy of the data and for a counter. -/
def CowRoom (v : Vfs) (n : Node) : Prop :=
  v.mem.outcome v.nextObj = .block ∧ (0 < n.capacity → v.mem.outcome (v.nextObj + 1) = .block)

/-- `vfs_truncate(node, 0)` has something to do. -/
structure Empties (v : Vfs) (n : Node) : Prop where
  file : Growable n
  change : (∀ c k, ¬v.Shared n c k) ∧ 0 < n.size ∨ (∃ c k, v.Shared n c k) ∧ CowRoom v n

/-- `O_TRUNC` reaches a node and has something to do there. -/
structure Truncates (v : Vfs) (c : Caller) (path : CStr) (flags : Nat) : Prop where
  trunc : Files.oTrunc flags = true
  allowed : ¬(oCreat flags = true ∧ Files.oExcl flags = true)
  real : synthLookup c.pids (c.resolve path) = none
  node : ∃ a n, destination v (c.resolve path) = .ret (some a) ∧ v.node a = some n ∧ Empties v n

/-- The nodes have the data they had, and the same blocks are held. -/
structure Reverted (v w : Vfs) : Prop where
  nodes : w.nodes = v.nodes
  node : ∀ a, (w.node a).map Node.toBlob = (v.node a).map Node.toBlob
  buf : w.buf = v.buf
  cell : ∀ c, (w.cell c).isSome = (v.cell c).isSome
  supply : v.nextObj ≤ w.nextObj

/-- A counter was taken, and nothing given back. -/
structure Fuller (v w : Vfs) : Prop where
  node : ∀ a, (w.node a).isSome = (v.node a).isSome
  buf : ∀ b < v.nextObj, w.buf b = v.buf b
  cell : ∀ c < v.nextObj, (w.cell c).isSome = (v.cell c).isSome
  supply : v.nextObj ≤ w.nextObj
  taken : ∃ c, v.nextObj ≤ c ∧ c < w.nextObj ∧ (w.cell c).isSome

section Data

variable {v w u : Vfs} {a : Nat} {n : Node} {ret : Int}

theorem Reverted.of_untouched (h : Untouched v w) : Reverted v w :=
  ⟨h.nodes, fun _ => by rw [h.node], h.buf, fun _ => by rw [h.cell], h.supply⟩

theorem Reverted.trans (h : Reverted v w) (h' : Reverted w u) : Reverted v u :=
  ⟨h'.nodes.trans h.nodes, fun a => (h'.node a).trans (h.node a), h'.buf.trans h.buf,
    fun c => (h'.cell c).trans (h.cell c), Nat.le_trans h.supply h'.supply⟩

/-- The count of a node is no data of it. -/
theorem Reverted.setRefs (hn : v.node a = some n) (refs : Int) : Reverted v (v.setNode a { n with refs := refs }) :=
  ⟨rfl, map_toBlob_setNode hn rfl, rfl, fun _ => rfl, Nat.le_refl _⟩

theorem Reverted.drawn (v : Vfs) (i : Nat) : Reverted v { v with nextObj := v.nextObj + i } :=
  ⟨rfl, fun _ => rfl, rfl, fun _ => rfl, Nat.le_add_right _ _⟩

theorem Reverted.node_isSome (h : Reverted v w) (a : Nat) : (w.node a).isSome = (v.node a).isSome := by
  have hsome := congrArg Option.isSome (h.node a)
  rwa [Option.isSome_map, Option.isSome_map] at hsome

theorem Reverted.fuller (h : Reverted v w) (h' : Fuller w u) : Fuller v u := by
  obtain ⟨c, hlo, hhi, hc⟩ := h'.taken
  refine ⟨fun a => (h'.node a).trans (h.node_isSome a), fun b hb => ?_, fun b hb => ?_,
    Nat.le_trans h.supply h'.supply, c, Nat.le_trans h.supply hlo, hhi, hc⟩
  · rw [h'.buf b (Nat.lt_of_lt_of_le hb h.supply), h.buf]
  · exact (h'.cell b (Nat.lt_of_lt_of_le hb h.supply)).trans (h.cell b)

/-- Another store into a node that is there. -/
theorem Fuller.setNode (h : Fuller v w) {m m' : Node} (hm : w.node a = some m) : Fuller v (w.setNode a m') := by
  refine ⟨fun b => ?_, h.buf, h.cell, h.supply, h.taken⟩
  rw [← h.node b]
  by_cases hb : b = a
  · rw [hb, Vfs.node_setNode_self, hm]
    rfl
  · rw [Vfs.node_setNode_ne hb]

theorem Fuller.drawn (h : Fuller v w) (i : Nat) : Fuller v { w with nextObj := w.nextObj + i } := by
  obtain ⟨c, hlo, hhi, hc⟩ := h.taken
  exact ⟨h.node, h.buf, h.cell, Nat.le_trans h.supply (Nat.le_add_right _ _), c, hlo,
    Nat.lt_of_lt_of_le hhi (Nat.le_add_right _ _), hc⟩

/-! ### `data_cow` -/

/-- The copy of `data_cow`, which is a block on top. -/
theorem cowCopy_made {copied : Option (Option Nat)} (h : cowCopy v n = .ret (w, copied)) :
    w.nodes = v.nodes ∧ w.node = v.node ∧ w.cell = v.cell ∧ w.mem = v.mem ∧
      ((n.capacity = 0 ∧ copied = some none ∧ w.buf = v.buf ∧ w.nextObj = v.nextObj) ∨
        (0 < n.capacity ∧ w.nextObj = v.nextObj + 1 ∧
          (copied = none ∧ v.mem.outcome v.nextObj ≠ .block ∧ w.buf = v.buf ∨
            copied = some (some v.nextObj) ∧ v.mem.outcome v.nextObj = .block ∧
              ∃ m, w.buf = Function.update v.buf v.nextObj (some m)))) := by
  unfold cowCopy at h
  split at h
  · rename_i hcap
    obtain ⟨⟨x, p⟩, hx, h⟩ := Exec.bind_eq_ret.mp h
    obtain ⟨⟨y, q⟩, hy, hx⟩ := Exec.bind_eq_ret.mp hx
    rw [Vfs.kmalloc, if_neg (Nat.ne_of_gt hcap)] at hy
    split at hy
    · cases hy
    split at hy
    · rename_i hblock
      cases hy
      cases hx
      obtain ⟨z, hz, h⟩ := Exec.bind_eq_ret.mp h
      cases h
      rcases Vfs.copyBytes_ret hz with ⟨_, rfl⟩ | ⟨b, src, m, _, _, _, rfl⟩
      · exact ⟨rfl, rfl, rfl, rfl, .inr ⟨hcap, rfl, .inr ⟨rfl, hblock, _, rfl⟩⟩⟩
      · exact ⟨rfl, rfl, rfl, rfl, .inr ⟨hcap, rfl, .inr ⟨rfl, hblock, _, Function.update_idem _ _ _⟩⟩⟩
    · rename_i hnull
      cases hy
      cases hx
      cases h
      exact ⟨rfl, rfl, rfl, rfl, .inr ⟨hcap, rfl, .inl ⟨rfl, by rw [hnull]; decide, rfl⟩⟩⟩
    · cases hy
  · rename_i hcap
    cases h
    exact ⟨rfl, rfl, rfl, rfl, .inl ⟨Nat.eq_zero_of_not_pos hcap, rfl, rfl, rfl⟩⟩

/-- A blob that is shared is copied, or only loses a holder. -/
theorem dataCow_shared (hn : v.node a = some n) {c : Nat} {k : Int} (hs : v.Shared n c k)
    (hfresh : ∀ b, v.nextObj ≤ b → v.buf b = none) (h : dataCow v a = .ret (w, ret)) :
    ret = -1 ∧ ¬CowRoom v n ∧ Reverted v w ∨ ret = 0 ∧ CowRoom v n ∧ w.nodes = v.nodes ∧ Fuller v w := by
  obtain ⟨hrefs, hk, hmore⟩ := hs
  rw [dataCow, Vfs.load_live hn, Exec.ret_bind, hrefs] at h
  dsimp only at h
  rw [Vfs.loadCell, hk, Exec.ret_bind, if_neg (Int.not_le.mpr hmore)] at h
  obtain ⟨⟨x, copied⟩, hx, h⟩ := Exec.bind_eq_ret.mp h
  obtain ⟨hnodes, hnode, hcell, hmem, hcopy⟩ := cowCopy_made hx
  have hnode' : x.node = v.node := hnode
  have hcells : ∀ b, (x.cell b).isSome = (v.cell b).isSome := by
    intro b
    rw [hcell]
    show (Function.update v.cell c _ b).isSome = _
    by_cases hb : b = c
    · rw [hb, Function.update_self, hk]
      rfl
    · rw [Function.update_of_ne hb]
  cases copied with
  | none =>
      cases h
      rcases hcopy with ⟨_, hsome, _⟩ | ⟨_, hnext, ⟨_, hno, hbuf⟩ | ⟨hsome, _⟩⟩
      · cases hsome
      · refine .inl ⟨rfl, fun hroom => hno hroom.1, hnodes, fun b => ?_, hbuf, hcells, ?_⟩
        · exact congrArg (Option.map Node.toBlob) (congrFun hnode' b)
        · exact hnext ▸ Nat.le_succ _
      · cases hsome
  | some data =>
      obtain ⟨⟨y, p⟩, hy, h⟩ := Exec.bind_eq_ret.mp h
      obtain ⟨rfl, hp⟩ := kmalloc_small (by decide) (by decide) hy
      -- the block for the counter comes after the one for the data
      obtain ⟨hsup, hold, hback, hroom⟩ : v.nextObj ≤ x.nextObj ∧ (∀ b < v.nextObj, x.buf b = v.buf b) ∧
          (x.freeBuf data).buf = v.buf ∧ (CowRoom v n ↔ v.mem.outcome x.nextObj = .block) := by
        rcases hcopy with ⟨hcap, hdata, hbuf, hnext⟩ | ⟨hcap, hnext, ⟨hdata, _⟩ | ⟨hdata, hblock, m, hbuf⟩⟩
        · cases hdata
          refine ⟨Nat.le_of_eq hnext.symm, fun b _ => by rw [hbuf]; rfl, hbuf, ?_⟩
          rw [hnext]
          exact ⟨And.left, fun hblock => ⟨hblock, fun hpos => absurd hcap (Nat.ne_of_gt hpos)⟩⟩
        · cases hdata
        · cases hdata
          refine ⟨hnext ▸ Nat.le_succ _, fun b hb => ?_, ?_, ?_⟩
          · rw [hbuf]
            exact Function.update_of_ne (Nat.ne_of_lt hb) _ _
          · show Function.update x.buf v.nextObj none = v.buf
            rw [hbuf]
            show Function.update (Function.update v.buf v.nextObj (some m)) v.nextObj none = v.buf
            rw [Function.update_idem, ← hfresh v.nextObj (Nat.le_refl _), Function.update_eq_self]
          · rw [hnext]
            exact ⟨fun hroom => hroom.2 hcap, fun h' => ⟨hblock, fun _ => h'⟩⟩
      rcases hp with ⟨rfl, hblock⟩ | ⟨rfl, hnull⟩
      · cases h
        rw [hmem] at hblock
        have hfull : Fuller v (Vfs.setCell { x with nextObj := x.nextObj + 1 } x.nextObj 1) := by
          refine ⟨fun b => congrArg Option.isSome (congrFun hnode' b), hold, fun b hb => ?_,
            Nat.le_trans hsup (Nat.le_succ _), x.nextObj, hsup, Nat.lt_succ_self _, ?_⟩
          · show (Function.update x.cell x.nextObj (some 1) b).isSome = _
            rw [Function.update_of_ne (Nat.ne_of_lt (Nat.lt_of_lt_of_le hb hsup)), hcells]
          · show (Function.update x.cell x.nextObj (some 1) x.nextObj).isSome
            rw [Function.update_self]
            rfl
        have hn' : (Vfs.setCell { x with nextObj := x.nextObj + 1 } x.nextObj 1).node a = some n :=
          (congrFun hnode' a).trans hn
        exact .inr ⟨rfl, hroom.mpr hblock, hnodes, hfull.setNode hn'⟩
      · cases h
        rw [hmem] at hnull
        refine .inl ⟨rfl, fun h' => ?_, ?_⟩
        · have hblock := hroom.mp h'
          exact absurd (hnull.symm.trans hblock) (by decide)
        · have hreverted : Reverted v { x with buf := v.buf } :=
            ⟨hnodes, fun b => congrArg (Option.map Node.toBlob) (congrFun hnode' b), rfl, hcells, hsup⟩
          have hfreed : (Vfs.freeBuf { x with nextObj := x.nextObj + 1 } data) =
              { { x with buf := v.buf } with nextObj := x.nextObj + 1 } := by
            rw [← hback]
            cases data <;> rfl
          rw [hfreed]
          exact hreverted.trans (.drawn _ 1)

/-! ### `O_TRUNC` and `vfs_close` -/

theorem truncOnOpen_rejected {flags : Nat} (hn : v.node a = some n) (hno : ¬Growable n)
    (h : Files.truncOnOpen v a flags = .ret w) : w = v := by
  unfold Files.truncOnOpen at h
  split at h
  · obtain ⟨⟨x, r⟩, hx, h⟩ := Exec.bind_eq_ret.mp h
    cases h
    unfold vfsTruncate at hx
    rw [Vfs.load_live hn, Exec.ret_bind] at hx
    split at hx
    · cases hx
      rfl
    · split at hx
      · cases hx
        rfl
      · rename_i hkind hsynth
        obtain ⟨hdir, hlink⟩ := not_or.mp hkind
        exact absurd ⟨eq_false_of_ne_true hdir, eq_false_of_ne_true hlink, eq_false_of_ne_true hsynth⟩ hno
  · cases h
    rfl

/-- `O_TRUNC` changes something exactly where there is something to do. -/
theorem truncOnOpen_done {flags : Nat} (hn : v.node a = some n) (hfresh : ∀ b, v.nextObj ≤ b → v.buf b = none)
    (h : Files.truncOnOpen v a flags = .ret w) :
    ¬(Files.oTrunc flags = true ∧ Empties v n) ∧ Reverted v w ∨
      (Files.oTrunc flags = true ∧ Empties v n) ∧
        (Fuller v w ∨ w = v.setNode a { n with size := 0 } ∧ 0 < n.size) := by
  by_cases hg : Growable n
  · have hkind : ¬(n.dirBit ∨ isSymlinkNode n) := by
      rw [hg.file, hg.text]
      exact not_or.mpr ⟨Bool.false_ne_true, Bool.false_ne_true⟩
    unfold Files.truncOnOpen at h
    split at h
    · rename_i htrunc
      obtain ⟨⟨x, r⟩, hx, h⟩ := Exec.bind_eq_ret.mp h
      cases h
      rw [vfsTruncate, Vfs.load_live hn, Exec.ret_bind, if_neg hkind, if_neg (ne_true_of_eq_false hg.real)] at hx
      obtain ⟨⟨y, r'⟩, hy, hrest⟩ := Exec.bind_eq_ret.mp hx
      dsimp only at hrest
      clear hx h
      by_cases hshared : ∃ c k, v.Shared n c k
      · obtain ⟨c, k, hs⟩ := hshared
        rcases dataCow_shared hn hs hfresh hy with ⟨rfl, hno, hrev⟩ | ⟨rfl, hroom, -, hfull⟩
        · rw [if_pos (by decide)] at hrest
          cases hrest
          refine .inl ⟨fun he => ?_, hrev⟩
          rcases he.2.change with ⟨hnot, _⟩ | ⟨_, hroom⟩
          · exact hnot c k hs
          · exact hno hroom
        · rw [if_neg (by decide)] at hrest
          refine .inr ⟨⟨htrunc, hg, .inr ⟨⟨c, k, hs⟩, hroom⟩⟩, .inl ?_⟩
          obtain ⟨m, hm, hlast⟩ := Exec.bind_eq_ret.mp hrest
          split at hlast
          · cases hlast
            exact hfull.setNode (Vfs.load_ret hm)
          · split at hlast
            · cases hlast
              exact hfull
            · rename_i hpos hzero
              exact absurd (Nat.eq_zero_of_not_pos hpos).symm hzero
      · have hnot : ∀ c k, ¬v.Shared n c k := fun c k hs => hshared ⟨c, k, hs⟩
        rcases dataCow_cases hn hy with ⟨_, rfl, rfl⟩ | ⟨c, k, hs, _⟩
        · rw [if_neg (by decide), Vfs.load_live hn, Exec.ret_bind] at hrest
          split at hrest
          · rename_i hpos
            cases hrest
            exact .inr ⟨⟨htrunc, hg, .inl ⟨hnot, hpos⟩⟩, .inr ⟨rfl, hpos⟩⟩
          · rename_i hpos
            rw [if_pos (Nat.eq_zero_of_not_pos hpos).symm] at hrest
            cases hrest
            refine .inl ⟨fun he => ?_, .of_untouched (.refl _)⟩
            exact he.2.change.elim (fun hsize => hpos hsize.2) fun hs => hshared hs.1
        · exact absurd hs (hnot c k)
    · rename_i htrunc
      cases h
      exact .inl ⟨fun he => htrunc he.1, .of_untouched (.refl _)⟩
  · rw [truncOnOpen_rejected hn hg h]
    exact .inl ⟨fun he => hg he.2.file, .of_untouched (.refl _)⟩

/-- A node that is no entry is only counted down. -/
theorem vfsClose_kept (hn : v.node a = some n) (hkept : a = rootAddr ∨ n.synth = false)
    (h : vfsClose v a = .ret (w, ret)) : ∃ refs, w = v.setNode a { n with refs := refs } := by
  obtain ⟨m, hm, hcounted | ⟨hs, hroot, _⟩⟩ := vfsClose_ret h
  · rw [hn, Option.some.injEq] at hm
    exact hm ▸ hcounted
  · rw [hn, Option.some.injEq] at hm
    rw [← hm, hkept.resolve_left hroot] at hs
    cases hs

/-- The node of an entry is freed with its text. -/
theorem vfsClose_entry {x : Vfs} (hnew : NewNode v x a n) (hs : n.synth = true) (hrefs : n.refs = 1)
    (hroot : a ≠ rootAddr) (hv : v.node a = none) (hfresh : ∀ b, v.nextObj ≤ b → v.buf b = none)
    (h : vfsClose { x with nextObj := x.nextObj + 1 } a = .ret (w, ret)) : Reverted v w := by
  have hload : Vfs.load { x with nextObj := x.nextObj + 1 } a = .ret n := by
    rw [Vfs.load, hnew.node, Function.update_self]
  have hcount : a ≠ rootAddr ∧ n.refs > 0 := ⟨hroot, by rw [hrefs]; exact Int.one_pos⟩
  rw [vfsClose, hload, Exec.ret_bind, if_pos hcount] at h
  dsimp only at h
  rw [if_pos ⟨hs, hroot, by omega⟩] at h
  cases h
  have hsup : v.nextObj ≤ x.nextObj := Nat.le_of_lt (Nat.lt_of_le_of_lt hnew.fresh.1 hnew.fresh.2)
  refine ⟨?_, fun b => ?_, ?_, fun b => ?_, Nat.le_trans hsup ?_⟩
  · simp [Vfs.freeNode, Vfs.setNode, hnew.nodes, hs]
  · have hback : Function.update v.node a none = v.node := by
      rw [← hv, Function.update_eq_self]
    simp [Vfs.freeNode, Vfs.setNode, hnew.node, hback]
  · show (Vfs.freeBuf _ n.data).buf = v.buf
    rw [Vfs.freeBuf_buf]
    show dropBuf x.buf n.data = v.buf
    rcases hnew.data with ⟨hd, _, hbuf⟩ | ⟨b, m, hd, hlo, _, _, hbuf⟩
    · rw [hd, hbuf]
      rfl
    · rw [hd, hbuf]
      show Function.update (Function.update v.buf b (some m)) b none = v.buf
      rw [Function.update_idem, ← hfresh b hlo, Function.update_eq_self]
  · simp [Vfs.freeNode, Vfs.setNode, hnew.cell]
  · simp [Vfs.freeNode, Vfs.setNode]

/-! ### Opened and closed again -/

variable {c : Caller} {path : CStr} {flags : Nat}

/-- What is left of a node that was opened, truncated and closed. -/
inductive LeftBehind (v : Vfs) (c : Caller) (path : CStr) (flags : Nat) (u : Vfs) : Prop
  | nothing : ¬Creates v c path flags → ¬Truncates v c path flags → Reverted v u → LeftBehind v c path flags u
  | node : Creates v c path flags → u.nodes ≠ v.nodes → LeftBehind v c path flags u
  | counter : Truncates v c path flags → Fuller v u → LeftBehind v c path flags u
  | empty {a : Nat} {n n' : Node} : Truncates v c path flags → v.node a = some n → u.node a = some n' →
      n'.size ≠ n.size → LeftBehind v c path flags u

/-- The count of a node is nothing that `O_TRUNC` looks at. -/
theorem empties_setRefs (refs : Int) :
    Empties (v.setNode a { n with refs := refs }) { n with refs := refs } ↔ Empties v n :=
  ⟨fun h => ⟨⟨h.file.file, h.file.text, h.file.real⟩, h.change⟩,
    fun h => ⟨⟨h.file.file, h.file.text, h.file.real⟩, h.change⟩⟩

theorem destination_listed {resolved : CStr} (h : destination v resolved = .ret (some a)) :
    a = rootAddr ∨ a ∈ v.nodes := by
  obtain ⟨followed, -, h⟩ := Exec.bind_eq_ret.mp h
  rw [Exec.ret.injEq] at h
  obtain ⟨q, -, hq⟩ := Option.bind_eq_some_iff.mp h
  exact findNode_listed hq

/-- A node that was there is opened, truncated and closed. -/
theorem leftBehind_node (hn : v.node a = some n) (hkept : a = rootAddr ∨ n.synth = false)
    (hfresh : ∀ b, v.nextObj ≤ b → v.buf b = none) (hcreates : ¬Creates v c path flags)
    (htrunc : Files.oTrunc flags = true ∧ Empties v n ↔ Truncates v c path flags)
    (hw : Files.truncOnOpen (v.setNode a { n with refs := n.refs + 1 }) a flags = .ret w)
    (hu : vfsClose { w with nextObj := w.nextObj + 1 } a = .ret (u, ret)) : LeftBehind v c path flags u := by
  have hopened := Reverted.setRefs hn (n.refs + 1)
  have hn₁ := Vfs.node_setNode_self v a { n with refs := n.refs + 1 }
  obtain ⟨m, hm, hlabel⟩ := (Files.truncOnOpen_names hw).live hn₁
  have hkept' : a = rootAddr ∨ m.synth = false := hkept.imp_right (congrArg Label.synth hlabel).trans
  obtain ⟨refs, rfl⟩ := @vfsClose_kept { w with nextObj := w.nextObj + 1 } u a m ret hm hkept' hu
  rcases truncOnOpen_done hn₁ hfresh hw with ⟨hno, hrev⟩ | ⟨⟨hflag, he⟩, hchanged⟩
  · refine .nothing hcreates (fun ht => hno ?_) ?_
    · obtain ⟨hflag, he⟩ := htrunc.mpr ht
      exact ⟨hflag, (empties_setRefs _).mpr he⟩
    · have hclosed := @Reverted.setRefs { w with nextObj := w.nextObj + 1 } a m hm refs
      exact (hopened.trans hrev).trans ((Reverted.drawn w 1).trans hclosed)
  · have ht := htrunc.mp ⟨hflag, (empties_setRefs _).mp he⟩
    rcases hchanged with hfull | ⟨rfl, hpos⟩
    · exact .counter ht (hopened.fuller ((hfull.drawn 1).setNode hm))
    · have hsize : m.size = 0 := by
        rw [Vfs.node_setNode_self, Option.some.injEq] at hm
        rw [← hm]
      refine .empty ht hn (Vfs.node_setNode_self _ _ _) ?_
      show m.size ≠ n.size
      rw [hsize]
      exact Nat.ne_of_lt hpos

/-- Whatever was opened. -/
theorem leftBehind_opened (hv : Settled v) (hx : OpenedAt v c path flags w (some a))
    (hallowed : oCreat flags = true → Files.oExcl flags = true → vfsStat v c path = .ret none) {x : Vfs}
    (hw : Files.truncOnOpen w a flags = .ret x) (hu : vfsClose { x with nextObj := x.nextObj + 1 } a = .ret (u, ret)) :
    LeftBehind v c path flags u := by
  have hbuf : ∀ b, v.nextObj ≤ b → v.buf b = none := fun b hb => (hv.fresh b hb).1
  cases hx with
  | @entry _ sid _ hcreat hs hopen =>
      have hcreates : ¬Creates v c path flags := fun h => by cases hs.symm.trans h.real
      have htrunc : ¬Truncates v c path flags := fun h => by cases hs.symm.trans h.real
      refine .nothing hcreates htrunc ?_
      obtain ⟨⟨ha, -, data, len, hn⟩, -⟩ := synthOpen_gives hopen
      have hfree := hv.table.fresh a (Nat.le_of_eq ha.symm)
      have hroot : a ≠ rootAddr := by
        rintro rfl
        obtain ⟨r, hr, -⟩ := hv.table.root
        rw [hfree] at hr
        cases hr
      cases (show OpenEffect _ _ none _ from synthOpen_effect hopen) with
      | found hold =>
          rw [hfree] at hold
          cases hold
      | @made _ n hnew _ =>
          have hn' := congrFun hnew.node a
          rw [Function.update_self, hn, Option.some.injEq] at hn'
          subst hn'
          have hsame := truncOnOpen_rejected hn (fun hg => absurd (show true = false from hg.real) (by decide)) hw
          subst hsame
          exact vfsClose_entry hnew rfl rfl hroot hfree hbuf hu
  | @node _ n hs hthere hdest hn =>
      have hkept : a = rootAddr ∨ n.synth = false := by
        refine (destination_listed hdest).imp_right fun hmem => ?_
        obtain ⟨m, hm, hreal⟩ := hv.table.listed a hmem
        rw [hn, Option.some.injEq] at hm
        exact hm ▸ hreal
      refine leftBehind_node hn hkept hbuf (fun h => hthere h.absent) ⟨fun h => ?_, fun ht => ?_⟩ hw hu
      · refine ⟨h.1, fun hnew => ?_, hs, a, n, hdest, hn, h.2⟩
        have hstat := hallowed hnew.1 hnew.2
        rw [vfsStat_real hs, hdest, Exec.ret_bind, statNode, Vfs.load_live hn] at hstat
        cases hstat
      · obtain ⟨b, m, hb, hm, he⟩ := ht.node
        rw [hdest] at hb
        cases hb
        rw [hn] at hm
        cases hm
        exact ⟨ht.trunc, he⟩
  | @link _ n hs hdang hthere hn hlink =>
      have hkept : a = rootAddr ∨ n.synth = false := by
        refine (findNode_listed hthere).imp_right fun hmem => ?_
        obtain ⟨m, hm, hreal⟩ := hv.table.listed a hmem
        rw [hn, Option.some.injEq] at hm
        exact hm ▸ hreal
      have hcreates : ¬Creates v c path flags := fun h => by cases hthere.symm.trans h.absent
      refine leftBehind_node hn hkept hbuf hcreates ⟨fun h => ?_, fun ht => ?_⟩ hw hu
      · exact absurd (hlink.symm.trans h.2.file.text) (by decide)
      · obtain ⟨b, _, hb, _⟩ := ht.node
        rw [hdang.destination] at hb
        cases hb
  | created hc =>
      refine .node hc fun hnodes => ?_
      have hclosed : u.nodes = x.nodes := by
        obtain ⟨n, -, ⟨refs, rfl⟩ | ⟨-, -, -, hsame, -⟩⟩ := vfsClose_ret hu
        · rfl
        · exact hsame
      rw [hclosed, (Files.truncOnOpen_names hw).nodes] at hnodes
      exact List.cons_ne_self _ _ hnodes

end Data

end LiteBSD

namespace LiteBSD.Tasks

open Lib Files

/-- `sys_open` of what may be no string, as `syscall_string_valid` finds. -/
def sysOpenAt (k : Kernel) (t : Nat) (c : Caller) (path : Option CStr) (flags : Nat) (stale : SockPtr) :
    Exec (Kernel × Int) :=
  match path with
  | none => .ret (k, -1)
  | some path => sysOpen k t c path flags stale

/-- The same nodes with the same sizes and contents, and `heap_used`. -/
structure LeftAlone (slack : Nat → Nat) (k k' : Kernel) : Prop where
  nodes : k'.vfs.nodes = k.vfs.nodes
  node : ∀ a, (k'.vfs.node a).isSome = (k.vfs.node a).isSome
  file : ∀ a n, k.vfs.node a = some n → ∃ n', k'.vfs.node a = some n' ∧ n'.size = n.size ∧
    k'.vfs.bytes n' = k.vfs.bytes n
  heap : heapCharged slack k' = heapCharged slack k

section Failed

variable {k k' : Kernel} {t flags : Nat} {c : Caller} {path : CStr} {stale : SockPtr} {slack : Nat → Nat}

theorem map_const_congr {α β γ : Type} {p : Option α} {q : Option β} (h : p.isSome = q.isSome) (x : γ) :
    p.map (fun _ => x) = q.map fun _ => x := by
  cases p <;> cases q <;> first | rfl | cases h

/-- What is at an address, by the stores. -/
theorem blockOf_congr {b : Nat} (hbuf : k'.vfs.buf b = k.vfs.buf b)
    (hcell : (k'.vfs.cell b).isSome = (k.vfs.cell b).isSome)
    (hnode : (k'.vfs.node b).isSome = (k.vfs.node b).isSome) (hfile : k'.file b = k.file b)
    (hpipe : k'.pipe b = k.pipe b) : blockOf k' b = blockOf k b := by
  unfold blockOf
  rw [hbuf, map_const_congr hcell, map_const_congr hnode, hfile, hpipe]

theorem leftAlone_of_reverted (hk : Steady k k) (hr : Reverted k.vfs k'.vfs) (hfile : k'.file = k.file)
    (hpipe : k'.pipe = k.pipe) (hblock : k'.block = k.block) : LeftAlone slack k k' := by
  refine ⟨hr.nodes, hr.node_isSome, fun a n hn => ?_, heapCharged_same hk hr.supply fun b => ?_⟩
  · have hblob := hr.node a
    rw [hn, Option.map_some, Option.map_eq_some_iff] at hblob
    obtain ⟨n', hn', hblob⟩ := hblob
    have hsize : n'.size = n.size := congrArg Blob.size hblob
    have hdata : n'.data = n.data := congrArg Blob.data hblob
    refine ⟨n', hn', hsize, ?_⟩
    unfold Vfs.bytes Vfs.byte
    rw [hsize, hdata, hr.buf]
  · exact heldAt_congr (blockOf_congr (congrFun hr.buf b) (hr.cell b) (hr.node_isSome b) (congrFun hfile b)
      (congrFun hpipe b)) (by rw [hpipe]) (congrFun hblock b)

/-- A counter that was taken is charged for. -/
theorem not_leftAlone_of_fuller (hk : Steady k k) (hf : Fuller k.vfs k'.vfs) (hfile : k'.file = k.file)
    (hpipe : k'.pipe = k.pipe) (hblock : k'.block = k.block) : ¬LeftAlone slack k k' := by
  intro h
  obtain ⟨b, hlo, hhi, hb⟩ := hf.taken
  obtain ⟨refs, hrefs⟩ := Option.isSome_iff_exists.mp hb
  refine absurd h.heap (Nat.ne_of_gt (heapCharged_lt hk (fun a ha => ?_) hf.supply hhi hlo ?_))
  · exact Nat.le_of_eq (heldAt_congr (blockOf_congr (hf.buf a ha) (hf.cell a ha) (hf.node a) (congrFun hfile a)
      (congrFun hpipe a)) (by rw [hpipe]) (congrFun hblock a)).symm
  · unfold blockOf
    rw [hrefs]
    cases k'.vfs.buf b <;> simp

theorem leftAlone_iff (hk : Steady k k) (hl : LeftBehind k.vfs c path flags k'.vfs) (hfile : k'.file = k.file)
    (hpipe : k'.pipe = k.pipe) (hblock : k'.block = k.block) :
    LeftAlone slack k k' ↔ ¬Creates k.vfs c path flags ∧ ¬Truncates k.vfs c path flags := by
  cases hl with
  | nothing hc ht hr => exact ⟨fun _ => ⟨hc, ht⟩, fun _ => leftAlone_of_reverted hk hr hfile hpipe hblock⟩
  | node hc hnodes => exact ⟨fun h => absurd h.nodes hnodes, fun h => absurd hc h.1⟩
  | counter ht hf => exact ⟨fun h => absurd h (not_leftAlone_of_fuller hk hf hfile hpipe hblock), fun h => absurd ht h.2⟩
  | @empty a n n' ht hn hn' hsize =>
      refine ⟨fun h => ?_, fun h => absurd ht h.2⟩
      obtain ⟨m, hm, hsame, _⟩ := h.file a n hn
      rw [hn', Option.some.injEq] at hm
      exact absurd (hm ▸ hsame) hsize

/-- A call that returns -1 keeps the files and the pipes. -/
theorem sysOpen_failed (hk : Steady k k) (h : sysOpen k t c path flags stale = .ret (k', -1)) :
    LeftBehind k.vfs c path flags k'.vfs ∧ k'.file = k.file ∧ k'.pipe = k.pipe ∧ k'.block = k.block := by
  rcases sysOpen_cases h with ⟨hrefused, rfl, -⟩ | ⟨hrefused, v, p, hv, ⟨rfl, rfl, -⟩ | ⟨n, w, rfl, hw, hopen⟩⟩
  · unfold exclRefuses at hrefused
    split at hrefused
    · rename_i hflags
      refine ⟨.nothing (fun hc => ?_) (fun ht => ht.allowed hflags) (.of_untouched (.refl _)), rfl, rfl, rfl⟩
      obtain ⟨st, hst, hrefused⟩ := Exec.bind_eq_ret.mp hrefused
      rw [vfsStat_real hc.real, destination_none hc.absent, Exec.ret_bind, statNode] at hst
      cases hst
      cases hrefused
    · cases hrefused
  · cases vfsOpen_cases hv with
    | failed hcreates hnowhere hu =>
        refine ⟨.nothing hcreates (fun ht => ?_) (.of_untouched hu), rfl, rfl, rfl⟩
        obtain ⟨a, _, ha, _⟩ := ht.node
        exact hnowhere ht.real a ha
  · have hallowed (hcreat : oCreat flags = true) (hexcl : oExcl flags = true) : vfsStat k.vfs c path = .ret none :=
      exclRefuses_false hcreat hexcl hrefused
    have hopened := vfsOpen_cases hv
    have hsup : k.vfs.nextObj ≤ w.nextObj :=
      Nat.le_trans (hk.vfsOpen c path flags _ hv).supply (truncOnOpen_names hw).supply
    rcases openNode_cases hopen with ⟨i, _, hret, -⟩ | ⟨-, u, r, hu, hk'⟩
    · have hi : (i.val : Int) ≠ -1 := by omega
      exact absurd hret.symm hi
    · have hleft := leftBehind_opened hk.vfs hopened hallowed hw hu
      rcases hk' with rfl | ⟨offset, rfl⟩
      · exact ⟨hleft, rfl, rfl, rfl⟩
      · refine ⟨hleft, ?_, rfl, rfl⟩
        have hnone : k.file w.nextObj = none := by
          by_contra hsome
          obtain ⟨x, hx⟩ := Option.ne_none_iff_exists'.mp hsome
          exact absurd (hk.file _ x hx).1 (Nat.not_lt.mpr hsup)
        show Function.update (Function.update k.file w.nextObj _) w.nextObj none = k.file
        rw [Function.update_idem, ← hnone, Function.update_eq_self]

end Failed

/-- Where `sys_open` returns -1 it has left the nodes, their contents and the
heap alone exactly if it did not get as far as to make a node or to empty
one. -/
theorem failed_open_alone_iff {k k' : Kernel} (hreach : pipelessSystem.Reach k) {t flags : Nat} {c : Caller}
    {path : Option CStr} {stale : SockPtr} (h : sysOpenAt k t c path flags stale = .ret (k', -1))
    (slack : Nat → Nat) :
    LeftAlone slack k k' ↔ ∀ p, path = some p → ¬Creates k.vfs c p flags ∧ ¬Truncates k.vfs c p flags := by
  have hk : Steady k k := .of_reach hreach
  cases path with
  | none =>
      cases h
      exact ⟨fun _ => nofun, fun _ => leftAlone_of_reverted hk (.of_untouched (.refl _)) rfl rfl rfl⟩
  | some p =>
      obtain ⟨hleft, hfile, hpipe, hblock⟩ := sysOpen_failed hk h
      rw [leftAlone_iff hk hleft hfile hpipe hblock]
      exact ⟨fun hno q hq => by cases hq; exact hno, fun hno => hno p rfl⟩

/-- A task whose slots are all taken, the first of them by a file. -/
def noSlotLeft : List FdEvent :=
  [.spawn fun _ => .null, .openPath 1 rootCaller (str "/f") 0x40 .null] ++ List.replicate 12 (.dup 1 0)

/-- The file is opened once more, without success. -/
theorem open_without_slot : ∃ k k', runAll Files.quietKernel noSlotLeft = .ret k ∧
    sysOpenAt k 1 rootCaller (some (str "/f")) 0 .null = .ret (k', -1) ∧ LeftAlone (fun _ => 0) k k' := by
  have hrun : ∃ k, runAll Files.quietKernel noSlotLeft = .ret k ∧
      ∃ k', sysOpenAt k 1 rootCaller (some (str "/f")) 0 .null = .ret (k', -1) := ⟨_, rfl, _, rfl⟩
  obtain ⟨k, hk, k', hopen⟩ := hrun
  refine ⟨k, k', hk, hopen, (failed_open_alone_iff (pipeless_runAll hk) hopen fun _ => 0).mpr fun p _ => ⟨?_, ?_⟩⟩
  · exact fun hc => absurd hc.creat (by decide)
  · exact fun ht => absurd ht.trunc (by decide)

/-- A file that is new stays. -/
theorem create_without_slot : ∃ k k', pipelessSystem.Reach k ∧
    sysOpenAt k 1 rootCaller (some (str "/g")) 0x40 .null = .ret (k', -1) ∧ findNode k.vfs (str "/g") = none ∧
    findNode k'.vfs (str "/g") ≠ none := by
  have hrun : ∃ k, runAll Files.quietKernel noSlotLeft = .ret k ∧ ∃ k',
      sysOpenAt k 1 rootCaller (some (str "/g")) 0x40 .null = .ret (k', -1) ∧ findNode k.vfs (str "/g") = none ∧
        findNode k'.vfs (str "/g") ≠ none := ⟨_, rfl, _, rfl, by decide, by decide⟩
  obtain ⟨k, hk, k', hopen, habs, hthere⟩ := hrun
  exact ⟨k, k', pipeless_runAll hk, hopen, habs, hthere⟩

end LiteBSD.Tasks
