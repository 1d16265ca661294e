/-
# `LiteBSD.Vfs.Additions` — calls that add a node, while there is memory

What `vfs_mkdir`, the creating `vfs_open` with a first `vfs_write`, and
`vfs_link` do when every allocation gives a block: they return, and there is
one more node on the list (`Added`).  What a reader sees of the others stays,
also where a link makes the node it is for share its buffer.
-/
import LiteBSD.Vfs.Contents
import Mathlib.Algebra.GroupWithZero.Nat

namespace LiteBSD

open Lib

/-- There is memory for every allocation of an ordinary size. -/
def AllBlocks (v : Vfs) : Prop := ∀ i, v.mem.outcome i = .block

/-- The nodes other than the one at `a` show a reader what they did. -/
def SeenAlike (a : Nat) (v v' : Vfs) : Prop :=
  ∀ x n, x ≠ a → v.node x = some n →
    ∃ n', v'.node x = some n' ∧ n'.path = n.path ∧ n'.mode = n.mode ∧ v'.bytes n' = v.bytes n

/-- The node `n` is new at `a`. -/
structure Added (v v' : Vfs) (a : Nat) (n : Node) : Prop where
  fresh : v.node a = none
  nodes : v'.nodes = a :: v.nodes
  here : v'.node a = some n
  others : SeenAlike a v v'
  only : ∀ x, x ≠ a → v.node x = none → v'.node x = none
  mem : v'.mem = v.mem

section Additions

variable {v v' v'' : Vfs} {a : Nat} {n n' : Node} {c : Caller} {path : CStr}

theorem SeenAlike.trans (h : SeenAlike a v v') (h' : SeenAlike a v' v'') : SeenAlike a v v'' := by
  intro x n hx hn
  obtain ⟨m, hm, hpath, hmode, hbytes⟩ := h x n hx hn
  obtain ⟨m', hm', hpath', hmode', hbytes'⟩ := h' x m hx hm
  exact ⟨m', hm', hpath'.trans hpath, hmode'.trans hmode, hbytes'.trans hbytes⟩

theorem SeenAlike.of_isolated (h : Isolated a v v') : SeenAlike a v v' :=
  fun x n hx hn => ⟨n, (h x n hx hn).1, rfl, rfl, h.bytes hx hn⟩

/-- What happens to the new node alone comes to the same. -/
theorem Added.then (h : Added v v' a n) (hnodes : v''.nodes = v'.nodes)
    (hnode : v''.node = Function.update v'.node a (some n')) (hothers : Isolated a v' v'')
    (hmem : v''.mem = v'.mem) : Added v v'' a n' := by
  refine ⟨h.fresh, hnodes.trans h.nodes, ?_, h.others.trans (.of_isolated hothers), fun x hx hn => ?_,
    hmem.trans h.mem⟩
  · rw [hnode, Function.update_self]
  · rw [hnode, Function.update_of_ne hx]
    exact h.only x hx hn

/-! ## Allocation -/

theorem Vfs.kmalloc_ret_block (h : AllBlocks v) {size : Nat} (hpos : 0 < size) (hmax : size ≤ heapSize - headerSize) :
    v.kmalloc size = .ret ({ v with nextObj := v.nextObj + 1 }, some v.nextObj) := by
  rw [Vfs.kmalloc, if_neg (Nat.ne_of_gt hpos), if_neg (Nat.not_lt.mpr hmax), h]

theorem Vfs.kmallocBuf_ret_block (h : AllBlocks v) {size : Nat} (hpos : 0 < size)
    (hmax : size ≤ heapSize - headerSize) :
    v.kmallocBuf size = .ret ({ v with
      nextObj := v.nextObj + 1
      buf := Function.update v.buf v.nextObj (some ⟨size, v.mem.junk v.nextObj⟩) }, some v.nextObj) := by
  rw [Vfs.kmallocBuf, Vfs.kmalloc_ret_block h hpos hmax]
  rfl

theorem nodeSize_fits : 0 < nodeSize ∧ nodeSize ≤ heapSize - headerSize := by decide

/-- A creation at the head of the list. -/
theorem added_linkIn (hfresh : v.node v.nextObj = none) (n : Node) :
    Added v (linkIn { v with nextObj := v.nextObj + 1 } v.nextObj n) v.nextObj { n with ino := v.nextIno } where
  fresh := hfresh
  nodes := rfl
  here := Function.update_self _ _ _
  others := fun _ m hx hm => ⟨m, (Function.update_of_ne hx _ _).trans hm, rfl, rfl, rfl⟩
  only := fun _ hx hm => (Function.update_of_ne hx _ _).trans hm
  mem := rfl

/-! ## Directories -/

theorem vfsMkdir_added (hall : AllBlocks v) (hfresh : v.node v.nextObj = none)
    (hsynth : synthLookup c.pids (c.resolve path) = none) (habs : findNode v (c.resolve path) = none)
    (hok : pathOk (c.resolve path) = true) :
    ∃ v' n, vfsMkdir v c path = .ret (v', 0) ∧ Added v v' v.nextObj n ∧ n.path = c.resolve path ∧
      n.mode = sIfdir := by
  refine ⟨_, _, ?_, added_linkIn hfresh (freshNode (c.resolve path) sIfdir), rfl, rfl⟩
  unfold vfsMkdir
  dsimp only
  rw [hsynth, habs, hok, Vfs.kmalloc_ret_block hall nodeSize_fits.1 nodeSize_fits.2]
  rfl

/-- A directory that is there, in whatever way, is left as it is. -/
theorem vfsMkdir_present (h : (synthLookup c.pids (c.resolve path)).isSome ∨ (findNode v (c.resolve path)).isSome) :
    vfsMkdir v c path = .ret (v, -1) := by
  unfold vfsMkdir
  dsimp only
  rcases h with h | h
  · rw [if_pos h]
  · rw [if_pos h, ite_self]

/-! ## Files -/

theorem vfsOpen_added (hall : AllBlocks v) (hfresh : v.node v.nextObj = none) {flags : Nat} (hcreat : oCreat flags = true)
    (hsynth : synthLookup c.pids (c.resolve path) = none) (habs : findNode v (c.resolve path) = none)
    (hok : lengthOk (c.resolve path) = true) :
    ∃ v', vfsOpen v c path flags = .ret (v', some v.nextObj) ∧
      Added v v' v.nextObj { freshNode (c.resolve path) sIfreg with ino := v.nextIno } := by
  refine ⟨_, ?_, added_linkIn hfresh (freshNode (c.resolve path) sIfreg)⟩
  unfold vfsOpen openCreate
  dsimp only
  rw [hsynth, habs]
  dsimp only
  rw [if_pos hcreat, if_pos hok, Vfs.kmalloc_ret_block hall nodeSize_fits.1 nodeSize_fits.2]
  rfl

/-- From 256 on, doubling reaches everything up to 8 MiB without passing
it. -/
theorem growLoop_ret {required : Nat} (hreq : required ≤ 8388608) {j fuel capacity : Nat} (hfuel : j < fuel)
    (hcap : capacity * 2 ^ j = 8388608) :
    ∃ k, growLoop fuel capacity required = some k ∧ required ≤ k ∧ k ≤ 8388608 := by
  induction j generalizing fuel capacity with
  | zero =>
    obtain ⟨fuel, rfl⟩ := Nat.exists_eq_succ_of_ne_zero (Nat.ne_of_gt hfuel)
    rw [Nat.pow_zero, Nat.mul_one] at hcap
    rw [growLoop, if_neg (by omega)]
    exact ⟨capacity, rfl, by omega, by omega⟩
  | succ j ih =>
    obtain ⟨fuel, rfl⟩ := Nat.exists_eq_succ_of_ne_zero (Nat.ne_of_gt (Nat.zero_lt_of_lt hfuel))
    have hpow : 0 < 2 ^ j := Nat.two_pow_pos j
    have htwice : capacity * 2 * 2 ^ j = 8388608 := by rw [← hcap, Nat.pow_succ', Nat.mul_assoc]
    have hle : capacity * 2 ≤ 8388608 := htwice ▸ Nat.le_mul_of_pos_right _ hpow
    rw [growLoop]
    split
    · rw [u32_of_lt (by omega)]
      exact ih (by omega) htwice
    · exact ⟨capacity, rfl, by omega, by omega⟩

/-- A file that has just been made. -/
structure Blank (n : Node) : Prop where
  mode : n.mode = sIfreg
  real : n.synth = false
  data : n.data = none
  size : n.size = 0
  capacity : n.capacity = 0
  dataRefs : n.dataRefs = none
  path : n.path ≠ devNull ∧ n.path ≠ devZero ∧ n.path ≠ devFb0

/-- The first write gives it a buffer of its own. -/
theorem growData_blank (hall : AllBlocks v) (hn : v.node a = some n) (hb : Blank n) {required : Nat}
    (hpos : 0 < required) (hmax : required ≤ 8388608) :
    ∃ k, required ≤ k ∧ growData v a required = .ret ({ v with
      nextObj := v.nextObj + 1
      node := Function.update v.node a (some { n with data := some v.nextObj, capacity := k })
      buf := Function.update v.buf v.nextObj (some ⟨k, v.mem.junk v.nextObj⟩) }, 0) := by
  obtain ⟨k, hk, hle, hfits⟩ := growLoop_ret hmax (by decide : 15 < 33) (by decide : 256 * 2 ^ 15 = 8388608)
  have hroom : k ≤ heapSize - headerSize := Nat.le_trans hfits (by decide)
  refine ⟨k, hle, ?_⟩
  unfold growData
  simp only [Vfs.load, hn, Exec.ret_bind, hb.capacity, hb.size, hb.data]
  rw [if_pos hpos, if_neg (not_not.mpr rfl), hk]
  dsimp only
  rw [Vfs.kmallocBuf_ret_block hall (Nat.lt_of_lt_of_le hpos hle) hroom]
  rfl

theorem vfsWrite_blank (hall : AllBlocks v) (hn : v.node a = some n) (hb : Blank n) {buffer : List UInt8}
    (hpos : 0 < buffer.length) (hmax : buffer.length ≤ 8388608) :
    ∃ k m, (∀ i < buffer.length, buffer[i]? = some (m.byte i)) ∧ vfsWrite v a 0 buffer = .ret ({ v with
      nextObj := v.nextObj + 1
      node := Function.update v.node a (some { n with data := some v.nextObj, capacity := k, size := buffer.length })
      buf := Function.update v.buf v.nextObj (some m) }, int32 buffer.length) := by
  obtain ⟨k, hle, hgrow⟩ := growData_blank hall hn hb hpos hmax
  have hdir : n.dirBit = false := by rw [Node.dirBit, hb.mode]; rfl
  have hlink : isSymlinkNode n = false := by rw [isSymlinkNode, hb.mode]; rfl
  have hcow : dataCow v a = .ret (v, 0) := by
    rw [dataCow, Vfs.load, hn, Exec.ret_bind, hb.dataRefs]
  have hword : u32 (0 + buffer.length) = buffer.length := by rw [Nat.zero_add, u32_of_lt (by omega)]
  have hne : buffer ≠ [] := List.length_pos_iff.mp hpos
  refine ⟨k, (⟨k, v.mem.junk v.nextObj⟩ : Buf).write 0 buffer, fun i hi => ?_, ?_⟩
  · rw [Buf.write]
    dsimp only
    rw [if_pos (Nat.zero_le _), Nat.sub_zero, List.getElem?_eq_getElem hi]
    rfl
  · rw [vfsWrite, Vfs.load, hn, Exec.ret_bind, hdir, hlink, hb.real, if_neg (by decide), if_neg (by decide),
      if_neg (by decide), if_neg hb.path.1, if_neg hb.path.2.1, if_neg hb.path.2.2, writeData, hcow, Exec.ret_bind]
    dsimp only
    rw [if_neg (by decide), hcow, Exec.ret_bind]
    dsimp only
    rw [if_neg (by decide), hword, if_neg (Nat.not_lt_zero _), hgrow, Exec.ret_bind]
    dsimp only
    rw [if_neg (by decide), Vfs.load]
    dsimp only
    rw [Function.update_self, Exec.ret_bind, Vfs.storeBytes, if_neg hne]
    dsimp only
    rw [Vfs.loadBuf]
    dsimp only
    rw [Function.update_self, Exec.ret_bind]
    dsimp only
    rw [Nat.zero_add, if_pos hle, Exec.ret_bind, hb.size, if_pos hpos, Vfs.setNode, Vfs.setBuf]
    dsimp only
    rw [Function.update_idem, Function.update_idem]

/-- A file and its contents, in place of the blank one. -/
theorem vfsWrite_added (hall : AllBlocks v') (hblobs : BlobInv v') (h : Added v v' a n) (hb : Blank n)
    {buffer : List UInt8} (hpos : 0 < buffer.length) (hmax : buffer.length ≤ 8388608) :
    ∃ v'' n'' ret, vfsWrite v' a 0 buffer = .ret (v'', ret) ∧ Added v v'' a n'' ∧ n''.toLabel = n.toLabel ∧
      v''.bytes n'' = buffer := by
  obtain ⟨k, m, hbytes, hret⟩ := vfsWrite_blank hall h.here hb hpos hmax
  refine ⟨_, { n with data := some v'.nextObj, capacity := k, size := buffer.length }, _, hret, ?_, rfl, ?_⟩
  · refine h.then rfl rfl (fun x l hx hl => ⟨?_, fun d hd => ?_⟩) rfl
    · exact (Function.update_of_ne hx _ _).trans hl
    · obtain ⟨e, he, _⟩ := hblobs.held x l d hl hd
      exact Function.update_of_ne (Nat.ne_of_lt (lt_supply_of_buf hblobs he)) _ _
  · refine Vfs.bytes_eq rfl fun i hi => ?_
    rw [hbytes i hi, byte_eq rfl (Function.update_self _ _ _)]

/-- A close leaves the file on the list. -/
theorem vfsClose_added (h : Added v v' a n) (hreal : n.synth = false) :
    ∃ v'' refs, vfsClose v' a = .ret (v'', 0) ∧ Added v v'' a { n with refs := refs } ∧
      v''.bytes { n with refs := refs } = v'.bytes n := by
  have hclose : ∀ refs, (if a ≠ rootAddr ∧ n.refs > 0 then { n with refs := n.refs - 1 } else n) =
      { n with refs := refs } → vfsClose v' a = .ret (v'.setNode a { n with refs := refs }, 0) := by
    intro refs hif
    rw [vfsClose, Vfs.load, h.here, Exec.ret_bind]
    dsimp only
    rw [hif, if_neg (by simp [hreal])]
  have hrefs : ∃ refs, (if a ≠ rootAddr ∧ n.refs > 0 then { n with refs := n.refs - 1 } else n) =
      { n with refs := refs } := by
    split
    · exact ⟨_, rfl⟩
    · exact ⟨n.refs, rfl⟩
  obtain ⟨refs, hif⟩ := hrefs
  refine ⟨_, refs, hclose refs hif, h.then rfl rfl (fun x l hx hl => ⟨?_, fun _ _ => rfl⟩) rfl, rfl⟩
  exact (Function.update_of_ne hx _ _).trans hl

/-! ## Links -/

theorem dataShare_block (hall : AllBlocks v) {target : Nat} {t : Node} (hne : target ≠ a) (hn : v.node a = some n)
    (ht : v.node target = some t) (hdir : t.dirBit = false)
    (hcell : ∀ k, t.dataRefs = some k → ∃ refs, v.cell k = some refs) :
    ∃ v', dataShare v a target = .ret (v', 0) := by
  have hload : ∀ w : Vfs, ∀ refs k, w.cell k = some refs → (∃ m, w.node target = some m) → w.node a = some n →
      ∃ v', (do
        let refs ← w.loadCell k
        let w := w.setCell k (refs + 1)
        let t ← w.load target
        let n ← w.load a
        let n := { n with
          data := t.data, size := t.size, capacity := t.capacity, mode := t.mode,
          dataRefs := some k }
        Exec.ret (w.setNode a n, (0 : Int))) = .ret (v', 0) := by
    rintro w refs k hk ⟨m, hm⟩ hn
    rw [Vfs.loadCell, hk, Exec.ret_bind]
    dsimp only
    rw [Vfs.load, Vfs.setCell, hm, Exec.ret_bind, Vfs.load, hn, Exec.ret_bind]
    exact ⟨_, rfl⟩
  rw [dataShare, Vfs.load, ht, Exec.ret_bind, hdir, if_neg (by decide)]
  cases hrefs : t.dataRefs with
  | some k =>
    obtain ⟨refs, hk⟩ := hcell k hrefs
    have hshare : shareCell v target = .ret (v, some k) := by
      rw [shareCell, Vfs.load, ht, Exec.ret_bind, hrefs]
    rw [hshare, Exec.ret_bind]
    exact hload v refs k hk ⟨t, ht⟩ hn
  | none =>
    have hshare : shareCell v target = .ret (({ v with nextObj := v.nextObj + 1 }.setNode target
        { t with dataRefs := some v.nextObj }).setCell v.nextObj 1, some v.nextObj) := by
      rw [shareCell, Vfs.load, ht, Exec.ret_bind, hrefs]
      dsimp only
      rw [Vfs.kmalloc_ret_block hall (by decide) (by decide)]
      rfl
    rw [hshare, Exec.ret_bind]
    exact hload _ 1 _ (Function.update_self _ _ _) ⟨_, Function.update_self _ _ _⟩
      ((Function.update_of_ne hne.symm _ _).trans hn)

/-- A second name for the data of the node at `target`. -/
theorem linkNode_added (hall : AllBlocks v) (hfresh : v.node v.nextObj = none) {target : Nat} {t : Node}
    (ht : v.node target = some t) (hdir : t.dirBit = false)
    (hcell : ∀ k, t.dataRefs = some k → ∃ refs, v.cell k = some refs) (resolved : CStr) :
    ∃ v' n, linkNode v resolved target = .ret (v', 0) ∧ Added v v' v.nextObj n ∧ n.path = resolved ∧
      n.mode = t.mode ∧ v'.bytes n = v.bytes t := by
  have hne : target ≠ v.nextObj := by
    rintro rfl
    rw [hfresh] at ht
    cases ht
  have hnamed : (Function.update v.node v.nextObj (some { freshNode resolved t.mode with ino := v.nextIno })) target =
      some t := (Function.update_of_ne hne _ _).trans ht
  obtain ⟨x, hx⟩ := dataShare_block (v := { ({ v with nextObj := v.nextObj + 1 }.setNode v.nextObj
    { freshNode resolved t.mode with ino := v.nextIno }) with nextIno := u32 (v.nextIno + 1) }) hall hne
    (Function.update_self _ _ _) hnamed hdir hcell
  obtain ⟨hbad, _⟩ | ⟨k, _, hnode, _, hbuf, hnodes, hmem, _⟩ := dataShare_ret hne (Function.update_self _ _ _) hnamed hdir hx
  · exact absurd rfl hbad
  have hbytes : ∀ m m' : Node, m'.data = m.data → m'.size = m.size → x.bytes m' = v.bytes m := by
    intro m m' hdata hsize
    unfold Vfs.bytes Vfs.byte
    rw [hdata, hsize, hbuf]
    rfl
  refine ⟨{ x with nodes := v.nextObj :: x.nodes }, { freshNode resolved t.mode with
    ino := v.nextIno, data := t.data, size := t.size, capacity := t.capacity, dataRefs := some k }, ?_,
    ⟨hfresh, congrArg _ hnodes, ?_, fun y m hy hm => ?_, fun y hy hm => ?_, hmem⟩, rfl, rfl, hbytes t _ rfl rfl⟩
  · rw [linkNode, Vfs.load, ht, Exec.ret_bind, Vfs.kmalloc_ret_block hall nodeSize_fits.1 nodeSize_fits.2, Exec.ret_bind]
    dsimp only
    rw [hx, Exec.ret_bind]
    rfl
  · show x.node _ = _
    rw [hnode, Function.update_self]
    rfl
  · show ∃ n', x.node y = some n' ∧ _
    rw [hnode, Function.update_of_ne hy]
    by_cases htarget : y = target
    · subst htarget
      obtain rfl : t = m := Option.some.inj (ht.symm.trans hm)
      exact ⟨_, Function.update_self _ _ _, rfl, rfl, hbytes _ _ rfl rfl⟩
    · refine ⟨m, ?_, rfl, rfl, hbytes _ _ rfl rfl⟩
      rw [Function.update_of_ne htarget]
      exact (Function.update_of_ne hy _ _).trans hm
  · show x.node y = none
    have htarget : y ≠ target := by
      rintro rfl
      rw [hm] at ht
      cases ht
    rw [hnode, Function.update_of_ne hy, Function.update_of_ne htarget]
    exact (Function.update_of_ne hy _ _).trans hm

theorem vfsLink_added (hall : AllBlocks v) (hfresh : v.node v.nextObj = none) {targetPath : CStr} {target : Nat} {t : Node}
    (hsynth : synthLookup c.pids (c.resolve path) = none) (habs : findNode v (c.resolve path) = none)
    (hok : pathOk (c.resolve path) = true) (hreal : synthLookup c.pids (c.resolve targetPath) = none)
    (htarget : findNode v (c.resolve targetPath) = some target) (ht : v.node target = some t) (hdir : t.dirBit = false)
    (hcell : ∀ k, t.dataRefs = some k → ∃ refs, v.cell k = some refs) :
    ∃ v' n, vfsLink v c path targetPath = .ret (v', 0) ∧ Added v v' v.nextObj n ∧ n.path = c.resolve path ∧
      n.mode = t.mode ∧ v'.bytes n = v.bytes t := by
  obtain ⟨v', n, hret, hrest⟩ := linkNode_added hall hfresh ht hdir hcell (c.resolve path)
  refine ⟨v', n, ?_, hrest⟩
  unfold vfsLink
  dsimp only
  rw [hsynth, hreal, htarget]
  dsimp only
  rw [if_neg (by decide), if_neg (by decide), Vfs.load, ht, Exec.ret_bind, hdir, habs, hok, if_neg (by decide),
    if_neg (by decide), if_neg (by decide), hret]

end Additions

end LiteBSD
