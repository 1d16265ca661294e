/-
# `LiteBSD.Vfs.Steps` — what one call can do to the names

A node has two halves: its `Label` (path, mode, number, open count) and its
`Blob` (where its bytes are).  Writing and truncating work on the second
half only (`SameNames`), so that everything about names and lifetimes is
proved from the first.

What a call does is said ONCE, by `call_effect`: it leaves the nodes alone,
counts an open or a close, makes a node, works on the data of one, frees one,
or renames.  The invariants of the following modules are proved from
`CallEffect`.
-/
import LiteBSD.Lib.Runs
import LiteBSD.Vfs.Model
import Mathlib.Data.List.Nodup

namespace LiteBSD

open Lib

/-! ## Memory -/

section Memory

variable {v v' : Vfs} {a : Nat}

/-- An allocation takes at most one address from the supply. -/
theorem Vfs.kmalloc_ret {size : Nat} {p : Option Nat} (h : v.kmalloc size = .ret (v', p)) :
    (v' = v ∨ v' = { v with nextObj := v.nextObj + 1 }) ∧
      ∀ b, p = some b → b = v.nextObj ∧ v'.nextObj = v.nextObj + 1 := by
  unfold Vfs.kmalloc at h
  split at h
  · cases h
    exact ⟨.inl rfl, by simp⟩
  · split at h
    · cases h
    · split at h
      · cases h
        exact ⟨.inr rfl, by simp⟩
      · cases h
        exact ⟨.inr rfl, by simp⟩
      · cases h

/-- An allocation of an ordinary size, if it returns. -/
theorem kmalloc_small {size : Nat} {p : Option Nat} (hpos : size ≠ 0) (hmax : size ≤ heapSize - headerSize)
    (h : v.kmalloc size = .ret (v', p)) : v' = { v with nextObj := v.nextObj + 1 } ∧
      (p = some v.nextObj ∧ v.mem.outcome v.nextObj = .block ∨
        p = none ∧ v.mem.outcome v.nextObj = .null) := by
  rw [Vfs.kmalloc, if_neg hpos, if_neg (Nat.not_lt.mpr hmax)] at h
  split at h
  · rename_i hblock
    cases h
    exact ⟨rfl, .inl ⟨rfl, hblock⟩⟩
  · rename_i hnull
    cases h
    exact ⟨rfl, .inr ⟨rfl, hnull⟩⟩
  · cases h

theorem Vfs.load_ret {n : Node} (h : v.load a = .ret n) : v.node a = some n := by
  unfold Vfs.load at h
  split at h
  · cases h
    assumption
  · cases h

theorem Vfs.loadBuf_ret {m : Buf} (h : v.loadBuf a = .ret m) : v.buf a = some m := by
  unfold Vfs.loadBuf at h
  split at h
  · cases h
    assumption
  · cases h

theorem Vfs.loadCell_ret {k : Int} (h : v.loadCell a = .ret k) : v.cell a = some k := by
  unfold Vfs.loadCell at h
  split at h
  · cases h
    assumption
  · cases h

end Memory

/-! ## Work on the data half -/

/-- What names the node at an address. -/
def Vfs.label (v : Vfs) (a : Nat) : Option Label := (v.node a).map Node.toLabel

/-- The list, the labels and the numbering are as before. -/
structure SameNames (v v' : Vfs) : Prop where
  nodes : v'.nodes = v.nodes
  label : v'.label = v.label
  supply : v.nextObj ≤ v'.nextObj

namespace SameNames

variable {v v' v'' : Vfs}

theorem refl (v : Vfs) : SameNames v v := ⟨rfl, rfl, Nat.le_refl _⟩

theorem trans (h : SameNames v v') (h' : SameNames v' v'') : SameNames v v'' :=
  ⟨h'.nodes.trans h.nodes, h'.label.trans h.label, Nat.le_trans h.supply h'.supply⟩

/-- Any change that leaves the list and the nodes alone. -/
theorem of_eq (hnodes : v'.nodes = v.nodes) (hnode : v'.node = v.node)
    (hobj : v.nextObj ≤ v'.nextObj) : SameNames v v' :=
  ⟨hnodes, by unfold Vfs.label; rw [hnode], hobj⟩

/-- A store that keeps the label of a node. -/
theorem setNode {a : Nat} {n : Node} (hl : v.label a = some n.toLabel) :
    SameNames v (v.setNode a n) := by
  refine ⟨rfl, ?_, Nat.le_refl _⟩
  funext x
  simp only [Vfs.label, Vfs.setNode, Function.update_apply] at hl ⊢
  split
  · rename_i hx
    rw [hx, hl, Option.map_some]
  · rfl

theorem freeBuf (v : Vfs) (data : Option Nat) : SameNames v (v.freeBuf data) := by
  cases data with
  | none => exact refl v
  | some b => exact of_eq rfl rfl (Nat.le_refl _)

theorem kmalloc {size : Nat} {p : Option Nat} (h : v.kmalloc size = .ret (v', p)) :
    SameNames v v' := by
  rcases (Vfs.kmalloc_ret h).1 with rfl | rfl
  · exact refl _
  · exact of_eq rfl rfl (Nat.le_succ _)

theorem kmallocBuf {size : Nat} {p : Option Nat} (h : v.kmallocBuf size = .ret (v', p)) :
    SameNames v v' := by
  obtain ⟨⟨w, q⟩, hw, h⟩ := Exec.bind_eq_ret.mp h
  refine (kmalloc hw).trans ?_
  cases q with
  | none =>
      cases h
      exact refl _
  | some b =>
      cases h
      exact of_eq rfl rfl (Nat.le_refl _)

theorem storeBytes {data : Option Nat} {offset : Nat} {src : List UInt8}
    (h : v.storeBytes data offset src = .ret v') : SameNames v v' := by
  unfold Vfs.storeBytes at h
  split at h
  · cases h
    exact refl _
  · cases data with
    | none => cases h
    | some b =>
        obtain ⟨m, _, h⟩ := Exec.bind_eq_ret.mp h
        split at h
        · cases h
          exact of_eq rfl rfl (Nat.le_refl _)
        · cases h

theorem copyBytes {dst n : Nat} {data : Option Nat}
    (h : v.copyBytes dst data n = .ret v') : SameNames v v' := by
  unfold Vfs.copyBytes at h
  split at h
  · cases h
    exact refl _
  · cases data with
    | none => cases h
    | some b =>
        obtain ⟨m, _, h⟩ := Exec.bind_eq_ret.mp h
        obtain ⟨m', _, h⟩ := Exec.bind_eq_ret.mp h
        split at h
        · cases h
          exact of_eq rfl rfl (Nat.le_refl _)
        · cases h

theorem zeroBytes {first last : Nat} {data : Option Nat}
    (h : v.zeroBytes data first last = .ret v') : SameNames v v' := by
  unfold Vfs.zeroBytes at h
  split at h
  · cases h
    exact refl _
  · cases data with
    | none => cases h
    | some b =>
        obtain ⟨m, _, h⟩ := Exec.bind_eq_ret.mp h
        split at h
        · cases h
          exact of_eq rfl rfl (Nat.le_refl _)
        · cases h

theorem of_cowCopy {n : Node} {copied : Option (Option Nat)}
    (h : cowCopy v n = .ret (v', copied)) : SameNames v v' := by
  unfold cowCopy at h
  split at h
  · obtain ⟨⟨w, p⟩, hw, h⟩ := Exec.bind_eq_ret.mp h
    refine (kmallocBuf hw).trans ?_
    cases p with
    | none =>
        cases h
        exact refl _
    | some b =>
        obtain ⟨u, hu, h⟩ := Exec.bind_eq_ret.mp h
        cases h
        exact copyBytes hu
  · cases h
    exact refl _

theorem of_dataCow {a : Nat} {ret : Int} (h : dataCow v a = .ret (v', ret)) :
    SameNames v v' := by
  obtain ⟨n, hn, h⟩ := Exec.bind_eq_ret.mp h
  have hl : v.label a = some n.toLabel := congrArg (Option.map Node.toLabel) (Vfs.load_ret hn)
  split at h
  · cases h
    exact refl _
  · rename_i c _
    obtain ⟨refs, _, h⟩ := Exec.bind_eq_ret.mp h
    split at h
    · cases h
      exact refl _
    · obtain ⟨⟨w, copied⟩, hw, h⟩ := Exec.bind_eq_ret.mp h
      have hcell : SameNames v (v.setCell c (refs - 1)) := ⟨rfl, rfl, Nat.le_refl _⟩
      have hvw : SameNames v w := hcell.trans (of_cowCopy hw)
      cases copied with
      | none =>
          cases h
          exact hvw
      | some data =>
          obtain ⟨⟨u, p⟩, hu, h⟩ := Exec.bind_eq_ret.mp h
          have hvu : SameNames v u := hvw.trans (kmalloc hu)
          cases p with
          | none =>
              cases h
              exact hvu.trans (freeBuf _ _)
          | some c' =>
              cases h
              have hcell : SameNames v (u.setCell c' 1) := hvu.trans ⟨rfl, rfl, Nat.le_refl _⟩
              exact hcell.trans (setNode ((congrFun hcell.label a).trans hl))

theorem of_growData {a required : Nat} {ret : Int} (h : growData v a required = .ret (v', ret)) :
    SameNames v v' := by
  obtain ⟨n, hn, h⟩ := Exec.bind_eq_ret.mp h
  have hl : v.label a = some n.toLabel := congrArg (Option.map Node.toLabel) (Vfs.load_ret hn)
  split at h
  · split at h
    · cases h
    · obtain ⟨⟨w, p⟩, hw, h⟩ := Exec.bind_eq_ret.mp h
      have hvw : SameNames v w := kmallocBuf hw
      cases p with
      | none =>
          cases h
          exact hvw
      | some b =>
          obtain ⟨u, hu, h⟩ := Exec.bind_eq_ret.mp h
          cases h
          have hvu := (hvw.trans (copyBytes hu)).trans (freeBuf u n.data)
          exact hvu.trans (setNode ((congrFun hvu.label a).trans hl))
  · cases h
    exact refl _

theorem of_writeData {a offset : Nat} {buffer : List UInt8} {ret : Int}
    (h : writeData v a offset buffer = .ret (v', ret)) : SameNames v v' := by
  obtain ⟨⟨v₁, r₁⟩, h₁, h⟩ := Exec.bind_eq_ret.mp h
  refine (of_dataCow h₁).trans ?_
  dsimp only at h
  split at h
  · cases h
    exact refl _
  · obtain ⟨⟨v₂, r₂⟩, h₂, h⟩ := Exec.bind_eq_ret.mp h
    refine (of_dataCow h₂).trans ?_
    dsimp only at h
    split at h
    · cases h
      exact refl _
    · split at h
      · cases h
        exact refl _
      · obtain ⟨⟨v₃, r₃⟩, h₃, h⟩ := Exec.bind_eq_ret.mp h
        refine (of_growData h₃).trans ?_
        dsimp only at h
        split at h
        · cases h
          exact refl _
        · obtain ⟨n, hn, h⟩ := Exec.bind_eq_ret.mp h
          obtain ⟨v₄, h₄, h⟩ := Exec.bind_eq_ret.mp h
          have hs := storeBytes h₄
          have hl : v₄.label a = some n.toLabel :=
            (congrFun hs.label a).trans (congrArg (Option.map Node.toLabel) (Vfs.load_ret hn))
          cases h
          split
          · exact hs.trans (setNode hl)
          · exact hs

theorem of_vfsWrite {a offset : Nat} {buffer : List UInt8} {ret : Int}
    (h : vfsWrite v a offset buffer = .ret (v', ret)) : SameNames v v' := by
  obtain ⟨n, _, h⟩ := Exec.bind_eq_ret.mp h
  repeat' split at h
  all_goals first
    | exact of_writeData h
    | cases h; exact of_eq rfl rfl (Nat.le_refl _)

theorem of_vfsTruncate {a length : Nat} {ret : Int}
    (h : vfsTruncate v a length = .ret (v', ret)) : SameNames v v' := by
  obtain ⟨n, _, h⟩ := Exec.bind_eq_ret.mp h
  split at h
  · cases h
    exact refl _
  · split at h
    · cases h
      exact refl _
    · obtain ⟨⟨v₁, r₁⟩, h₁, h⟩ := Exec.bind_eq_ret.mp h
      refine (of_dataCow h₁).trans ?_
      dsimp only at h
      split at h
      · cases h
        exact refl _
      · obtain ⟨n₁, hn₁, h⟩ := Exec.bind_eq_ret.mp h
        split at h
        · cases h
          exact setNode (congrArg (Option.map Node.toLabel) (Vfs.load_ret hn₁))
        · split at h
          · cases h
            exact refl _
          · obtain ⟨⟨v₂, r₂⟩, h₂, h⟩ := Exec.bind_eq_ret.mp h
            refine (of_growData h₂).trans ?_
            dsimp only at h
            split at h
            · cases h
              exact refl _
            · obtain ⟨n₂, hn₂, h⟩ := Exec.bind_eq_ret.mp h
              obtain ⟨v₃, h₃, h⟩ := Exec.bind_eq_ret.mp h
              cases h
              have hs := zeroBytes h₃
              exact hs.trans (setNode ((congrFun hs.label a).trans
                (congrArg (Option.map Node.toLabel) (Vfs.load_ret hn₂))))

end SameNames

/-! ## The effects of the calls -/

/-- The supply of addresses and the framebuffer at most have changed. -/
structure Untouched (v v' : Vfs) : Prop where
  nodes : v'.nodes = v.nodes
  node : v'.node = v.node
  buf : v'.buf = v.buf
  cell : v'.cell = v.cell
  mem : v'.mem = v.mem
  supply : v.nextObj ≤ v'.nextObj

/-- A block of data that only the new node `n` knows of. -/
def OwnData (v v' : Vfs) (n : Node) : Prop :=
  (n.data = none ∧ n.capacity = 0 ∧ v'.buf = v.buf) ∨
    ∃ b m, n.data = some b ∧ v.nextObj ≤ b ∧ b < v'.nextObj ∧ m.len = n.capacity ∧
      v'.buf = Function.update v.buf b (some m)

/-- A new node at `a`: a synthetic one is on no list, any other at the head
of the list and under a path that no node had. -/
structure NewNode (v v' : Vfs) (a : Nat) (n : Node) : Prop where
  fresh : v.nextObj ≤ a ∧ a < v'.nextObj
  node : v'.node = Function.update v.node a (some n)
  nodes : v'.nodes = if n.synth then v.nodes else a :: v.nodes
  absent : n.synth = false → findNode v n.path = none
  data : OwnData v v' n
  size : n.size ≤ n.capacity
  unshared : n.dataRefs = none
  counted : n.refs = 1
  cell : v'.cell = v.cell
  mem : v'.mem = v.mem

/-- A new name at `a` for the data of the node at `target`, whose counter is
`c`. -/
structure NewLink (v v' : Vfs) (a target c : Nat) (n t : Node) : Prop where
  fresh : v.nextObj ≤ a ∧ a < v'.nextObj
  listed : target = rootAddr ∨ target ∈ v.nodes
  live : v.node target = some t
  file : t.dirBit = false
  node : v'.node = Function.update (Function.update v.node target
    (some { t with dataRefs := some c })) a (some n)
  nodes : v'.nodes = a :: v.nodes
  absent : findNode v n.path = none
  real : n.synth = false
  shares : n.toBlob = { t.toBlob with dataRefs := some c }
  counter : (∃ k, t.dataRefs = some c ∧ v.cell c = some k ∧
      v'.cell = Function.update v.cell c (some (k + 1))) ∨
    (t.dataRefs = none ∧ v.nextObj ≤ c ∧ c < v'.nextObj ∧
      v'.cell = Function.update v.cell c (some 2))
  buf : v'.buf = v.buf
  mem : v'.mem = v.mem

/-- Where the nodes are: the list is without repetition, the root is on no
list, a listed node is allocated and real, an allocated node that is not
listed is the root or synthetic, and addresses come from the supply. -/
structure NodeTable (v : Vfs) : Prop where
  nodup : v.nodes.Nodup
  root : ∃ n, v.node rootAddr = some n ∧ n.dirBit = true
  rootOff : rootAddr ∉ v.nodes
  listed : ∀ a ∈ v.nodes, ∃ n, v.node a = some n ∧ n.synth = false
  unlisted : ∀ a n, v.node a = some n → a ∉ v.nodes → a = rootAddr ∨ n.synth = true
  fresh : ∀ a, v.nextObj ≤ a → v.node a = none

/-- The node that `vfs_unlink` removes, if it removes one. -/
def unlinkTarget (v : Vfs) (c : Caller) (path : CStr) : Option Nat :=
  if (synthLookup c.pids (c.resolve path)).isSome ∨ c.resolve path = [slash] then none
  else v.nodes.find? (v.hasPath (c.resolve path))

/-- The node that `vfs_rmdir` removes, if it removes one. -/
def rmdirTarget (v : Vfs) (c : Caller) (path : CStr) : Option Nat :=
  if c.resolve path ≠ [slash] ∧ ¬v.hasChild (c.resolve path) ∧
      (findNode v (c.resolve path)).any fun a => (v.node a).any isDirNode then
    unlinkTarget v c path
  else none

/-- The node that a call removes from the list, if it removes one. -/
def VfsCall.removes (v : Vfs) : VfsCall → Option Nat
  | .unlink c path => unlinkTarget v c path
  | .rmdir c path => rmdirTarget v c path
  | _ => none

/-- The path at which a call makes a node of the list, if it makes one. -/
def VfsCall.creates : VfsCall → Option CStr
  | .openPath c path flags => if oCreat flags then some (c.resolve path) else none
  | .mkdir c path => some (c.resolve path)
  | .link c path _ => some (c.resolve path)
  | .symlink c _ linkpath => some (c.resolve linkpath)
  | _ => none

/-- The node that `vfs_rename` moves, if it moves one. -/
def renameTarget (v : Vfs) (c : Caller) (oldpath newpath : CStr) : Option Nat :=
  let old := c.resolve oldpath
  let new := c.resolve newpath
  if (synthLookup c.pids old).isSome ∨ (synthLookup c.pids new).isSome ∨ old = [slash] ∨
      new = [slash] ∨ old = new ∨ (findNode v new).isSome then none
  else findNode v old

/-- What a call can do. -/
inductive CallEffect (v v' : Vfs) : VfsCall → Prop
  | idle {call : VfsCall} : Untouched v v' → CallEffect v v' call
  | opened {c : Caller} {path : CStr} {flags a : Nat} {n : Node} :
      v.node a = some n → (a = rootAddr ∨ a ∈ v.nodes) →
      v' = v.setNode a { n with refs := n.refs + 1 } → CallEffect v v' (.openPath c path flags)
  | made {call : VfsCall} {a : Nat} {n : Node} : NewNode v v' a n →
      (n.synth = false → call.creates = some n.path) → CallEffect v v' call
  | linked {c : Caller} {path targetPath : CStr} {a target cell : Nat} {n t : Node} :
      NewLink v v' a target cell n t → n.path = c.resolve path →
      CallEffect v v' (.link c path targetPath)
  | wrote {a offset : Nat} {buffer : List UInt8} {ret : Int} :
      vfsWrite v a offset buffer = .ret (v', ret) → CallEffect v v' (.write a offset buffer)
  | truncated {a length : Nat} {ret : Int} :
      vfsTruncate v a length = .ret (v', ret) → CallEffect v v' (.truncate a length)
  | closed {a : Nat} {ret : Int} : vfsClose v a = .ret (v', ret) → CallEffect v v' (.close a)
  | unlinked {call : VfsCall} {a : Nat} :
      call.removes v = some a → a ∈ v.nodes → unlinkNode v a = .ret v' → CallEffect v v' call
  | renamed {c : Caller} {oldpath newpath : CStr} {a : Nat} {ret : Int} :
      renameTarget v c oldpath newpath = some a →
      renameNode v a (c.resolve oldpath) (c.resolve newpath) = .ret (v', ret) →
      CallEffect v v' (.rename c oldpath newpath)

section Effects

variable {v v' : Vfs} {c : Caller} {path : CStr}

theorem Untouched.refl (v : Vfs) : Untouched v v := ⟨rfl, rfl, rfl, rfl, rfl, Nat.le_refl _⟩

theorem Untouched.trans {v'' : Vfs} (h : Untouched v v') (h' : Untouched v' v'') :
    Untouched v v'' :=
  ⟨h'.nodes.trans h.nodes, h'.node.trans h.node, h'.buf.trans h.buf, h'.cell.trans h.cell,
    h'.mem.trans h.mem, Nat.le_trans h.supply h'.supply⟩

theorem Untouched.kmalloc {size : Nat} {p : Option Nat} (h : v.kmalloc size = .ret (v', p)) :
    Untouched v v' := by
  rcases (Vfs.kmalloc_ret h).1 with rfl | rfl
  · exact refl _
  · exact ⟨rfl, rfl, rfl, rfl, rfl, Nat.le_succ _⟩

/-- A data block for a new node: none is asked for, there is none, or it
comes from the supply. -/
theorem Vfs.kmallocBuf_ret {size : Nat} {p : Option Nat} (h : v.kmallocBuf size = .ret (v', p)) :
    (p = none ∧ Untouched v v') ∨
      (p = some v.nextObj ∧ v' = { v with
        nextObj := v.nextObj + 1
        buf := Function.update v.buf v.nextObj (some ⟨size, v.mem.junk v.nextObj⟩) }) := by
  obtain ⟨⟨w, q⟩, hw, h⟩ := Exec.bind_eq_ret.mp h
  cases q with
  | none =>
      cases h
      exact .inl ⟨rfl, Untouched.kmalloc hw⟩
  | some b =>
      cases h
      obtain ⟨hcase, hb⟩ := Vfs.kmalloc_ret hw
      obtain ⟨rfl, hobj⟩ := hb b rfl
      rcases hcase with rfl | rfl
      · exact absurd hobj (Nat.ne_of_lt (Nat.lt_succ_self _))
      · exact .inr ⟨rfl, rfl⟩

/-- Storing into a block changes its bytes, not its length. -/
theorem Vfs.storeBytes_ret {data : Option Nat} {offset : Nat} {src : List UInt8}
    (h : v.storeBytes data offset src = .ret v') :
    (src = [] ∧ v' = v) ∨
      ∃ b m, data = some b ∧ v.buf b = some m ∧ offset + src.length ≤ m.len ∧
        v' = v.setBuf b (m.write offset src) := by
  unfold Vfs.storeBytes at h
  split at h
  · cases h
    exact .inl ⟨by assumption, rfl⟩
  · cases data with
    | none => cases h
    | some b =>
        obtain ⟨m, hm, h⟩ := Exec.bind_eq_ret.mp h
        split at h
        · cases h
          exact .inr ⟨b, m, rfl, Vfs.loadBuf_ret hm, by assumption, rfl⟩
        · cases h

/-- A node with a data block of its own: `w` is the state after the node is
allocated, `u` after the block is, and `x` after the block is filled. -/
theorem newNode_of_stored {w u x : Vfs} {a size : Nat} {p : Option Nat} {content : List UInt8}
    {n : Node} (hw : v.kmalloc nodeSize = .ret (w, some a))
    (hu : w.kmallocBuf size = .ret (u, p)) (hx : u.storeBytes p 0 content = .ret x)
    (hnone : p = none → size = 0)
    (hn : n.data = p ∧ n.capacity = size ∧ n.size ≤ size ∧ n.dataRefs = none ∧ n.refs = 1)
    (habs : n.synth = false → findNode v n.path = none)
    (hv' : v' = { x.setNode a n with
      nodes := if n.synth then x.nodes else a :: x.nodes
      nextIno := v'.nextIno }) : NewNode v v' a n := by
  obtain ⟨hdata, hcap, hsize, hrefs, hcount⟩ := hn
  have hvw := Untouched.kmalloc hw
  obtain ⟨rfl, hobj⟩ := (Vfs.kmalloc_ret hw).2 a rfl
  -- whatever the block is, the rest of the state is as `w` has it
  have hx' : OwnData w x n ∧ x.nodes = w.nodes ∧ x.node = w.node ∧ x.cell = w.cell ∧
      x.mem = w.mem ∧ w.nextObj ≤ x.nextObj := by
    rcases Vfs.kmallocBuf_ret hu with ⟨rfl, hwu⟩ | ⟨rfl, rfl⟩
    · rcases Vfs.storeBytes_ret hx with ⟨_, rfl⟩ | ⟨b, m, hb, _⟩
      · exact ⟨.inl ⟨hdata, hcap.trans (hnone rfl), hwu.buf⟩, hwu.nodes, hwu.node, hwu.cell,
          hwu.mem, hwu.supply⟩
      · cases hb
    · rcases Vfs.storeBytes_ret hx with ⟨_, rfl⟩ | ⟨b, m, hb, hm, _, rfl⟩
      · exact ⟨.inr ⟨w.nextObj, ⟨size, w.mem.junk w.nextObj⟩, hdata, Nat.le_refl _,
          Nat.lt_succ_self _, hcap.symm, rfl⟩, rfl, rfl, rfl, rfl, Nat.le_succ _⟩
      · cases hb
        simp only [Function.update_self, Option.some.injEq] at hm
        refine ⟨.inr ⟨w.nextObj, m.write 0 content, hdata, Nat.le_refl _, Nat.lt_succ_self _,
          ?_, ?_⟩, rfl, rfl, rfl, rfl, Nat.le_succ _⟩
        · rw [hcap, ← hm]
          rfl
        · exact Function.update_idem _ _ _
  obtain ⟨hown, hnodes, hnode, hcell, hmem, hsup⟩ := hx'
  rw [hv']
  refine ⟨⟨Nat.le_refl _, Nat.lt_of_lt_of_le (hobj ▸ Nat.lt_succ_self _) hsup⟩, ?_, ?_, habs, ?_,
    hcap.symm ▸ hsize, hrefs, hcount, hcell.trans hvw.cell, hmem.trans hvw.mem⟩
  · show Function.update x.node _ _ = _
    rw [hnode, hvw.node]
  · show (if n.synth then x.nodes else _ :: x.nodes) = _
    rw [hnodes, hvw.nodes]
  · rcases hown with ⟨hd, hc, hb⟩ | ⟨b, m, hd, hlo, hhi, hlen, hb⟩
    · exact .inl ⟨hd, hc, hb.trans hvw.buf⟩
    · exact .inr ⟨b, m, hd, Nat.le_trans hvw.supply hlo, hhi, hlen, hb.trans (by rw [hvw.buf])⟩

/-- A listed node with no data of its own yet. -/
theorem newNode_linkIn {a mode : Nat} {resolved : CStr} (hv : v.kmalloc nodeSize = .ret (v', some a))
    (habs : findNode v resolved = none) :
    NewNode v (linkIn v' a (freshNode resolved mode)) a
      { freshNode resolved mode with ino := v'.nextIno } := by
  obtain ⟨hcase, ha⟩ := Vfs.kmalloc_ret hv
  obtain ⟨rfl, hobj⟩ := ha a rfl
  rcases hcase with rfl | rfl
  · exact absurd hobj (Nat.ne_of_lt (Nat.lt_succ_self _))
  · exact ⟨⟨Nat.le_refl _, Nat.lt_succ_self _⟩, rfl, rfl, fun _ => habs, .inl ⟨rfl, rfl, rfl⟩,
      Nat.le_refl _, rfl, rfl, rfl, rfl⟩

theorem findNode_listed {path : CStr} {a : Nat} (h : findNode v path = some a) :
    a = rootAddr ∨ a ∈ v.nodes := by
  unfold findNode at h
  split at h
  · cases h
    exact .inl rfl
  · exact .inr (List.mem_of_find?_eq_some h)

/-- The root and the listed nodes are there. -/
theorem NodeTable.live (ht : NodeTable v) {a : Nat} (h : a = rootAddr ∨ a ∈ v.nodes) : ∃ n, v.node a = some n := by
  rcases h with rfl | hmem
  · obtain ⟨n, hn, -⟩ := ht.root
    exact ⟨n, hn⟩
  · obtain ⟨n, hn, -⟩ := ht.listed a hmem
    exact ⟨n, hn⟩

/-- `vfs_open` settles on the root or a listed node. -/
theorem openTarget_listed {resolved : CStr} {flags a t : Nat}
    (h : openTarget v resolved flags a = .ret (some t)) (ha : a = rootAddr ∨ a ∈ v.nodes) :
    t = rootAddr ∨ t ∈ v.nodes := by
  obtain ⟨n, _, h⟩ := Exec.bind_eq_ret.mp h
  split at h
  · cases h
    exact ha
  · obtain ⟨followed, _, h⟩ := Exec.bind_eq_ret.mp h
    split at h
    · cases h
    · split at h
      · cases h
        exact findNode_listed (by assumption)
      · split at h
        · cases h
          exact ha
        · cases h

/-- What `vfs_open` can do, by the path it may create and by what it
returns. -/
inductive OpenEffect (v v' : Vfs) (created : Option CStr) : Option Nat → Prop
  | failed : Untouched v v' → OpenEffect v v' created none
  | found {a : Nat} {n : Node} : v.node a = some n → (a = rootAddr ∨ a ∈ v.nodes) →
      v' = v.setNode a { n with refs := n.refs + 1 } → OpenEffect v v' created (some a)
  | made {a : Nat} {n : Node} : NewNode v v' a n → (n.synth = false → created = some n.path) →
      OpenEffect v v' created (some a)

theorem synthOpen_effect {resolved : CStr} {sid : SynthId} {p : Option Nat}
    {created : Option CStr} (h : synthOpen v c resolved sid = .ret (v', p)) :
    OpenEffect v v' created p := by
  unfold synthOpen at h
  split at h
  · cases h
    exact .failed (.refl _)
  · rename_i content _
    obtain ⟨⟨w, q⟩, hw, h⟩ := Exec.bind_eq_ret.mp h
    cases q with
    | none =>
        cases h
        exact .failed (.kmalloc hw)
    | some a =>
        obtain ⟨⟨u, data⟩, hu, h⟩ := Exec.bind_eq_ret.mp h
        dsimp only at h
        split at h
        · rename_i hnull
          cases h
          rcases Vfs.kmallocBuf_ret hu with ⟨_, hwu⟩ | ⟨hd, _⟩
          · exact .failed ((Untouched.kmalloc hw).trans hwu)
          · rw [hnull.2] at hd
            cases hd
        · rename_i hnull
          obtain ⟨x, hx, h⟩ := Exec.bind_eq_ret.mp h
          cases h
          refine .made (newNode_of_stored (n := synthNode resolved sid data content.length) hw hu hx
            ?_ ⟨rfl, rfl, Nat.le_refl _, rfl, rfl⟩ (fun hs => by cases hs) rfl)
            fun hs => by cases hs
          intro hd
          by_contra hlen
          exact hnull ⟨fun hc => hlen (by rw [hc]; rfl), hd⟩

theorem openCreate_effect {resolved : CStr} {p : Option Nat} (habs : findNode v resolved = none)
    (h : openCreate v resolved = .ret (v', p)) : OpenEffect v v' (some resolved) p := by
  unfold openCreate at h
  split at h
  · obtain ⟨⟨w, q⟩, hw, h⟩ := Exec.bind_eq_ret.mp h
    cases q with
    | none =>
        cases h
        exact .failed (.kmalloc hw)
    | some a =>
        cases h
        exact .made (newNode_linkIn hw habs) fun _ => rfl
  · cases h
    exact .failed (.refl _)

theorem vfsOpen_effect {flags : Nat} {p : Option Nat} (h : vfsOpen v c path flags = .ret (v', p)) :
    OpenEffect v v' (if oCreat flags then some (c.resolve path) else none) p := by
  unfold vfsOpen at h
  dsimp only at h
  split at h
  · split at h
    · cases h
      exact .failed (.refl _)
    · exact synthOpen_effect h
  · split at h
    · rename_i a ha
      obtain ⟨target, ht, h⟩ := Exec.bind_eq_ret.mp h
      cases target with
      | none =>
          cases h
          exact .failed (.refl _)
      | some t =>
          obtain ⟨n, hn, h⟩ := Exec.bind_eq_ret.mp h
          cases h
          exact .found (Vfs.load_ret hn) (openTarget_listed ht (findNode_listed ha)) rfl
    · rename_i habs
      split at h
      · rename_i hcreat
        rw [if_pos hcreat]
        exact openCreate_effect habs h
      · cases h
        exact .failed (.refl _)

theorem vfsMkdir_effect {ret : Int} (h : vfsMkdir v c path = .ret (v', ret)) :
    Untouched v v' ∨ ∃ a n, NewNode v v' a n ∧ n.path = c.resolve path ∧ n.mode = sIfdir := by
  unfold vfsMkdir at h
  dsimp only at h
  split at h
  · cases h
    exact .inl (.refl _)
  · split at h
    · cases h
      exact .inl (.refl _)
    · rename_i habs
      split at h
      · cases h
        exact .inl (.refl _)
      · obtain ⟨⟨w, q⟩, hw, h⟩ := Exec.bind_eq_ret.mp h
        cases q with
        | none =>
            cases h
            exact .inl (.kmalloc hw)
        | some a =>
            cases h
            exact .inr ⟨a, _, newNode_linkIn hw (Option.not_isSome_iff_eq_none.mp habs), rfl, rfl⟩

/-- The data of a node is a string: a zero comes before the end of the block. -/
def Terminated (v : Vfs) (n : Node) : Prop :=
  ∃ b m i, n.data = some b ∧ v.buf b = some m ∧ i < m.len ∧ m.byte i = 0

theorem symlinkNode_effect {resolved target : CStr} {ret : Int}
    (habs : findNode v resolved = none) (h : symlinkNode v resolved target = .ret (v', ret)) :
    Untouched v v' ∨ ∃ a n, NewNode v v' a n ∧ n.path = resolved ∧ Terminated v' n := by
  obtain ⟨⟨w, q⟩, hw, h⟩ := Exec.bind_eq_ret.mp h
  cases q with
  | none =>
      cases h
      exact .inl (.kmalloc hw)
  | some a =>
      obtain ⟨⟨u, data⟩, hu, h⟩ := Exec.bind_eq_ret.mp h
      cases data with
      | none =>
          cases h
          rcases Vfs.kmallocBuf_ret hu with ⟨_, hwu⟩ | ⟨hd, _⟩
          · exact .inl ((Untouched.kmalloc hw).trans hwu)
          · cases hd
      | some b =>
          obtain ⟨x, hx, h⟩ := Exec.bind_eq_ret.mp h
          cases h
          refine .inr ⟨a, { freshNode resolved sIflnk with
              data := some b, size := target.length, capacity := target.length + 1,
              ino := x.nextIno }, newNode_of_stored hw hu hx (fun hd => by cases hd)
            ⟨rfl, rfl, Nat.le_succ _, rfl, rfl⟩ (fun _ => habs) rfl, rfl, ?_⟩
          rcases Vfs.storeBytes_ret hx with ⟨hnil, _⟩ | ⟨b', m, hb, _, hlen, rfl⟩
          · exact absurd hnil (List.append_ne_nil_of_right_ne_nil _ (List.cons_ne_nil _ _))
          · cases hb
            rw [List.length_append, List.length_singleton] at hlen
            have hlt : target.length < m.len := by omega
            refine ⟨b, m.write 0 (target ++ [0]), target.length, rfl, Function.update_self _ _ _, hlt, ?_⟩
            simp [Buf.write]

theorem vfsSymlink_effect {target : CStr} {ret : Int}
    (h : vfsSymlink v c target path = .ret (v', ret)) :
    Untouched v v' ∨ ∃ a n, NewNode v v' a n ∧ n.path = c.resolve path ∧ Terminated v' n := by
  unfold vfsSymlink at h
  dsimp only at h
  split at h
  · cases h
    exact .inl (.refl _)
  · split at h
    · cases h
      exact .inl (.refl _)
    · rename_i habs
      split at h
      · cases h
        exact .inl (.refl _)
      · split at h
        · cases h
          exact .inl (.refl _)
        · exact symlinkNode_effect (Option.not_isSome_iff_eq_none.mp habs) h

/-- The counter a second holder takes: the one there is, or a new one. -/
theorem shareCell_ret {target : Nat} {p : Option Nat} {t : Node} (ht : v.node target = some t)
    (h : shareCell v target = .ret (v', p)) :
    (p = none ∧ Untouched v v') ∨
      (∃ k, p = some k ∧ t.dataRefs = some k ∧ v' = v) ∨
      (p = some v.nextObj ∧ t.dataRefs = none ∧ v' =
        ({ v with nextObj := v.nextObj + 1 }.setNode target
          { t with dataRefs := some v.nextObj }).setCell v.nextObj 1) := by
  obtain ⟨t', ht', h⟩ := Exec.bind_eq_ret.mp h
  obtain rfl : t = t' := Option.some.inj (ht.symm.trans (Vfs.load_ret ht'))
  split at h
  · rename_i k hk
    cases h
    exact .inr (.inl ⟨k, rfl, hk, rfl⟩)
  · rename_i hk
    obtain ⟨⟨w, q⟩, hw, h⟩ := Exec.bind_eq_ret.mp h
    cases q with
    | none =>
        cases h
        exact .inl ⟨rfl, .kmalloc hw⟩
    | some k =>
        obtain ⟨hcase, hq⟩ := Vfs.kmalloc_ret hw
        obtain ⟨rfl, hobj⟩ := hq k rfl
        cases h
        rcases hcase with rfl | rfl
        · exact absurd hobj (Nat.ne_of_lt (Nat.lt_succ_self _))
        · exact .inr (.inr ⟨rfl, hk, rfl⟩)

/-- The second holder at `a` of the data at `target`. -/
theorem dataShare_ret {a target : Nat} {n t : Node} {ret : Int} (hne : target ≠ a)
    (hn : v.node a = some n) (ht : v.node target = some t) (hdir : t.dirBit = false)
    (h : dataShare v a target = .ret (v', ret)) :
    (ret ≠ 0 ∧ Untouched v v') ∨
      ∃ k, ret = 0 ∧
        v'.node = Function.update (Function.update v.node target
          (some { t with dataRefs := some k })) a
          (some { n with
            data := t.data, size := t.size, capacity := t.capacity, mode := t.mode,
            dataRefs := some k }) ∧
        ((∃ refs, t.dataRefs = some k ∧ v.cell k = some refs ∧
            v'.cell = Function.update v.cell k (some (refs + 1))) ∨
          (t.dataRefs = none ∧ v.nextObj ≤ k ∧ k < v'.nextObj ∧
            v'.cell = Function.update v.cell k (some 2))) ∧
        v'.buf = v.buf ∧ v'.nodes = v.nodes ∧ v'.mem = v.mem ∧ v.nextObj ≤ v'.nextObj := by
  rw [dataShare, Exec.bind_eq_ret] at h
  obtain ⟨t', ht', h⟩ := h
  obtain rfl : t = t' := Option.some.inj (ht.symm.trans (Vfs.load_ret ht'))
  rw [if_neg (by simp [hdir]), Exec.bind_eq_ret] at h
  obtain ⟨⟨w, p⟩, hw, h⟩ := h
  rcases shareCell_ret ht hw with ⟨rfl, hu⟩ | ⟨k, rfl, hk, rfl⟩ | ⟨rfl, hk, rfl⟩
  · cases h
    exact .inl ⟨by decide, hu⟩
  · obtain ⟨refs, hrefs, h⟩ := Exec.bind_eq_ret.mp h
    obtain ⟨t₁, ht₁, h⟩ := Exec.bind_eq_ret.mp h
    obtain ⟨n₁, hn₁, h⟩ := Exec.bind_eq_ret.mp h
    obtain rfl : t = t₁ := Option.some.inj (ht.symm.trans (Vfs.load_ret ht₁))
    obtain rfl : n = n₁ := Option.some.inj (hn.symm.trans (Vfs.load_ret hn₁))
    cases h
    have hself : Function.update w.node target (some { t with dataRefs := some k }) = w.node := by
      rw [← hk, ← ht]
      exact Function.update_eq_self _ _
    exact .inr ⟨k, rfl, by rw [hself]; rfl, .inl ⟨refs, hk, Vfs.loadCell_ret hrefs, rfl⟩, rfl, rfl,
      rfl, Nat.le_refl _⟩
  · obtain ⟨refs, hrefs, h⟩ := Exec.bind_eq_ret.mp h
    obtain ⟨t₁, ht₁, h⟩ := Exec.bind_eq_ret.mp h
    obtain ⟨n₁, hn₁, h⟩ := Exec.bind_eq_ret.mp h
    replace hrefs := Vfs.loadCell_ret hrefs
    replace ht₁ := Vfs.load_ret ht₁
    replace hn₁ := Vfs.load_ret hn₁
    simp only [Vfs.setCell, Vfs.setNode, Function.update_self, Option.some.injEq] at hrefs ht₁
    simp only [Vfs.setCell, Vfs.setNode, Function.update_of_ne (Ne.symm hne), hn,
      Option.some.injEq] at hn₁
    subst hrefs ht₁ hn₁
    cases h
    refine .inr ⟨v.nextObj, rfl, rfl, .inr ⟨hk, Nat.le_refl _, Nat.lt_succ_self _, ?_⟩, rfl, rfl,
      rfl, Nat.le_succ _⟩
    exact Function.update_idem _ _ _

theorem linkNode_effect {resolved : CStr} {target : Nat} {t : Node} {ret : Int}
    (hfresh : ∀ a, v.nextObj ≤ a → v.node a = none) (ht : v.node target = some t)
    (hlisted : target = rootAddr ∨ target ∈ v.nodes) (hdir : t.dirBit = false)
    (habs : findNode v resolved = none) (h : linkNode v resolved target = .ret (v', ret)) :
    Untouched v v' ∨ ∃ a k n, NewLink v v' a target k n t ∧ n.path = resolved ∧ n.mode = t.mode := by
  obtain ⟨t', ht', h⟩ := Exec.bind_eq_ret.mp h
  obtain rfl : t = t' := Option.some.inj (ht.symm.trans (Vfs.load_ret ht'))
  obtain ⟨⟨w, p⟩, hw, h⟩ := Exec.bind_eq_ret.mp h
  have hvw := Untouched.kmalloc hw
  cases p with
  | none =>
      cases h
      exact .inl hvw
  | some a =>
      obtain ⟨rfl, hobj⟩ := (Vfs.kmalloc_ret hw).2 a rfl
      have hnone : v.node v.nextObj = none := hfresh _ (Nat.le_refl _)
      have hne : target ≠ v.nextObj := by
        rintro rfl
        rw [hnone] at ht
        cases ht
      obtain ⟨⟨x, r⟩, hx, h⟩ := Exec.bind_eq_ret.mp h
      have hx' := dataShare_ret hne (Function.update_self _ _ _)
        ((Function.update_of_ne hne _ _).trans (by rw [hvw.node]; exact ht)) hdir hx
      dsimp only at h
      rcases hx' with ⟨hr, hux⟩ | ⟨k, rfl, hnode, hcell, hbuf, hnodes, hmem, hsup⟩
      · rw [if_pos hr] at h
        cases h
        refine .inl ⟨hux.nodes.trans hvw.nodes, ?_, hux.buf.trans hvw.buf, hux.cell.trans hvw.cell,
          hux.mem.trans hvw.mem, Nat.le_trans hvw.supply hux.supply⟩
        show Function.update x.node _ none = v.node
        rw [hux.node]
        show Function.update (Function.update w.node _ _) _ none = v.node
        rw [Function.update_idem, hvw.node, ← hnone]
        exact Function.update_eq_self _ _
      · rw [if_neg (by simp)] at h
        cases h
        refine .inr ⟨v.nextObj, k, { freshNode resolved t.mode with
            ino := w.nextIno, data := t.data, size := t.size, capacity := t.capacity,
            dataRefs := some k }, ⟨⟨Nat.le_refl _, Nat.lt_of_lt_of_le
            (hobj ▸ Nat.lt_succ_self _) hsup⟩, hlisted, ht, hdir, ?_, ?_, habs, rfl, rfl, ?_,
          hbuf.trans hvw.buf, hmem.trans hvw.mem⟩, rfl, rfl⟩
        · show x.node = _
          rw [hnode]
          show Function.update (Function.update (Function.update w.node _ _) _ _) _ _ = _
          rw [Function.update_comm hne, Function.update_idem, hvw.node,
            Function.update_comm hne.symm]
          rfl
        · show v.nextObj :: x.nodes = _
          rw [hnodes]
          show _ :: w.nodes = _
          rw [hvw.nodes]
        · show (∃ refs, _ ∧ v.cell k = _ ∧ x.cell = _) ∨ _ ∧ _ ∧ _ ∧ x.cell = _
          rcases hcell with ⟨refs, hk, hc, hx⟩ | ⟨hk, hlo, hhi, hx⟩
          · exact .inl ⟨refs, hk, hvw.cell ▸ hc, hx.trans (by rw [← hvw.cell]; rfl)⟩
          · exact .inr ⟨hk, Nat.le_trans hvw.supply hlo, hhi,
              hx.trans (by rw [← hvw.cell]; rfl)⟩

theorem vfsLink_effect {targetPath : CStr} {ret : Int}
    (hfresh : ∀ a, v.nextObj ≤ a → v.node a = none)
    (h : vfsLink v c path targetPath = .ret (v', ret)) :
    Untouched v v' ∨
      ∃ a target k n t, NewLink v v' a target k n t ∧ n.path = c.resolve path ∧ n.mode = t.mode := by
  unfold vfsLink at h
  dsimp only at h
  split at h
  · cases h
    exact .inl (.refl _)
  · split at h
    · cases h
      exact .inl (.refl _)
    · split at h
      · cases h
        exact .inl (.refl _)
      · rename_i target htarget
        obtain ⟨t, ht, h⟩ := Exec.bind_eq_ret.mp h
        split at h
        · cases h
          exact .inl (.refl _)
        · rename_i hdir
          split at h
          · cases h
            exact .inl (.refl _)
          · rename_i habs
            split at h
            · cases h
              exact .inl (.refl _)
            · rcases linkNode_effect hfresh (Vfs.load_ret ht) (findNode_listed htarget)
                (Bool.not_eq_true _ ▸ hdir) (Option.not_isSome_iff_eq_none.mp habs) h with
                hu | ⟨a, k, n, hl, hp, hmode⟩
              · exact .inl hu
              · exact .inr ⟨a, target, k, n, t, hl, hp, hmode⟩

theorem vfsUnlink_effect {ret : Int} (h : vfsUnlink v c path = .ret (v', ret)) :
    (unlinkTarget v c path = none ∧ v' = v) ∨
      ∃ a, unlinkTarget v c path = some a ∧ unlinkNode v a = .ret v' := by
  unfold vfsUnlink at h
  dsimp only at h
  split at h
  · rename_i hs
    cases h
    exact .inl ⟨if_pos (.inl hs), rfl⟩
  · rename_i hs
    split at h
    · rename_i hroot
      cases h
      exact .inl ⟨if_pos (.inr hroot), rfl⟩
    · rename_i hroot
      have htarget : unlinkTarget v c path = v.nodes.find? (v.hasPath (c.resolve path)) :=
        if_neg (not_or.mpr ⟨hs, hroot⟩)
      split at h
      · rename_i hfind
        cases h
        exact .inl ⟨htarget.trans hfind, rfl⟩
      · rename_i a hfind
        obtain ⟨w, hw, h⟩ := Exec.bind_eq_ret.mp h
        cases h
        exact .inr ⟨a, htarget.trans hfind, hw⟩

theorem vfsRmdir_effect {ret : Int} (h : vfsRmdir v c path = .ret (v', ret)) :
    v' = v ∨ ∃ a, rmdirTarget v c path = some a ∧ unlinkNode v a = .ret v' := by
  unfold vfsRmdir at h
  dsimp only at h
  split at h
  · cases h
    exact .inl rfl
  · rename_i hroot
    split at h
    · cases h
      exact .inl rfl
    · rename_i a ha
      obtain ⟨n, hn, h⟩ := Exec.bind_eq_ret.mp h
      split at h
      · cases h
        exact .inl rfl
      · rename_i hdir
        split at h
        · cases h
          exact .inl rfl
        · rename_i hchild
          have htarget : rmdirTarget v c path = unlinkTarget v c path := by
            refine if_pos ⟨hroot, hchild, ?_⟩
            simp only [ha, Vfs.load_ret hn, Option.any_some, isDirNode]
            simpa using hdir
          rcases vfsUnlink_effect h with ⟨_, hv⟩ | ⟨b, hb, hu⟩
          · exact .inl hv
          · exact .inr ⟨b, htarget.trans hb, hu⟩

theorem vfsRename_effect {newpath : CStr} {ret : Int}
    (h : vfsRename v c path newpath = .ret (v', ret)) :
    (renameTarget v c path newpath = none ∧ v' = v) ∨
      ∃ a, renameTarget v c path newpath = some a ∧
        renameNode v a (c.resolve path) (c.resolve newpath) = .ret (v', ret) := by
  by_cases hs₁ : (synthLookup c.pids (c.resolve path)).isSome
  · rw [vfsRename, if_pos hs₁] at h
    cases h
    exact .inl ⟨if_pos (.inl hs₁), rfl⟩
  by_cases hs₂ : (synthLookup c.pids (c.resolve newpath)).isSome
  · rw [vfsRename, if_neg hs₁, if_pos hs₂] at h
    cases h
    exact .inl ⟨if_pos (.inr (.inl hs₂)), rfl⟩
  by_cases hroot : c.resolve path = [slash] ∨ c.resolve newpath = [slash]
  · rw [vfsRename, if_neg hs₁, if_neg hs₂, if_pos hroot] at h
    cases h
    exact .inl ⟨if_pos (.inr (.inr (hroot.imp_right .inl))), rfl⟩
  by_cases hsame : c.resolve path = c.resolve newpath
  · rw [vfsRename, if_neg hs₁, if_neg hs₂, if_neg hroot, if_pos hsame] at h
    cases h
    exact .inl ⟨if_pos (.inr (.inr (.inr (.inr (.inl hsame))))), rfl⟩
  rw [vfsRename, if_neg hs₁, if_neg hs₂, if_neg hroot, if_neg hsame] at h
  by_cases hnew : (findNode v (c.resolve newpath)).isSome
  · refine .inl ⟨if_pos (.inr (.inr (.inr (.inr (.inr hnew))))), ?_⟩
    split at h
    · cases h
      rfl
    · rw [if_pos hnew] at h
      cases h
      rfl
  · have htarget : renameTarget v c path newpath = findNode v (c.resolve path) := by
      refine if_neg ?_
      simp only [not_or] at hroot ⊢
      exact ⟨hs₁, hs₂, hroot.1, hroot.2, hsame, hnew⟩
    split at h
    · rename_i hnone
      cases h
      exact .inl ⟨htarget.trans hnone, rfl⟩
    · rename_i a ha
      rw [if_neg hnew] at h
      exact .inr ⟨a, htarget.trans ha, h⟩

theorem unlinkTarget_listed {a : Nat} (h : unlinkTarget v c path = some a) : a ∈ v.nodes := by
  unfold unlinkTarget at h
  split at h
  · cases h
  · exact List.mem_of_find?_eq_some h

theorem rmdirTarget_eq {a : Nat} (h : rmdirTarget v c path = some a) :
    unlinkTarget v c path = some a := by
  unfold rmdirTarget at h
  split at h
  · exact h
  · cases h

/-- What a call that returns has done. -/
theorem call_effect (hfresh : ∀ a, v.nextObj ≤ a → v.node a = none) {call : VfsCall}
    (h : vfsCall v call = .ret v') : CallEffect v v' call := by
  cases call with
  | openPath c path flags =>
      obtain ⟨⟨w, p⟩, hw, h⟩ := Exec.bind_eq_ret.mp h
      cases h
      cases vfsOpen_effect hw with
      | failed hu => exact .idle hu
      | found hn hl hv => exact .opened hn hl hv
      | made hm hp => exact .made hm hp
  | close a =>
      obtain ⟨⟨w, r⟩, hw, h⟩ := Exec.bind_eq_ret.mp h
      cases h
      exact .closed hw
  | write a offset buffer =>
      obtain ⟨⟨w, r⟩, hw, h⟩ := Exec.bind_eq_ret.mp h
      cases h
      exact .wrote hw
  | truncate a length =>
      obtain ⟨⟨w, r⟩, hw, h⟩ := Exec.bind_eq_ret.mp h
      cases h
      exact .truncated hw
  | unlink c path =>
      obtain ⟨⟨w, r⟩, hw, h⟩ := Exec.bind_eq_ret.mp h
      cases h
      rcases vfsUnlink_effect hw with ⟨_, rfl⟩ | ⟨a, ha, hu⟩
      · exact .idle (.refl _)
      · exact .unlinked ha (unlinkTarget_listed ha) hu
  | mkdir c path =>
      obtain ⟨⟨w, r⟩, hw, h⟩ := Exec.bind_eq_ret.mp h
      cases h
      rcases vfsMkdir_effect hw with hu | ⟨a, n, hm, hp, -⟩
      · exact .idle hu
      · exact .made hm fun _ => congrArg some hp.symm
  | link c path targetPath =>
      obtain ⟨⟨w, r⟩, hw, h⟩ := Exec.bind_eq_ret.mp h
      cases h
      rcases vfsLink_effect hfresh hw with hu | ⟨a, target, k, n, t, hl, hp, -⟩
      · exact .idle hu
      · exact .linked hl hp
  | symlink c target linkpath =>
      obtain ⟨⟨w, r⟩, hw, h⟩ := Exec.bind_eq_ret.mp h
      cases h
      rcases vfsSymlink_effect hw with hu | ⟨a, n, hm, hp, -⟩
      · exact .idle hu
      · exact .made hm fun _ => congrArg some hp.symm
  | rename c oldpath newpath =>
      obtain ⟨⟨w, r⟩, hw, h⟩ := Exec.bind_eq_ret.mp h
      cases h
      rcases vfsRename_effect hw with ⟨_, rfl⟩ | ⟨a, ha, hr⟩
      · exact .idle (.refl _)
      · exact .renamed ha hr
  | rmdir c path =>
      obtain ⟨⟨w, r⟩, hw, h⟩ := Exec.bind_eq_ret.mp h
      cases h
      rcases vfsRmdir_effect hw with rfl | ⟨a, ha, hu⟩
      · exact .idle (.refl _)
      · exact .unlinked ha (unlinkTarget_listed (rmdirTarget_eq ha)) hu

/-- A call that has a node to remove removes it. -/
theorem unlinkNode_of_removes {call : VfsCall} {a : Nat} (ha : call.removes v = some a)
    (h : vfsCall v call = .ret v') : unlinkNode v a = .ret v' := by
  have hunlink : ∀ {c path w ret}, unlinkTarget v c path = some a →
      vfsUnlink v c path = .ret (w, ret) → unlinkNode v a = .ret w := by
    intro c path w ret ht hw
    rcases vfsUnlink_effect hw with ⟨hnone, _⟩ | ⟨b, hb, hu⟩
    · rw [ht] at hnone
      cases hnone
    · rw [ht, Option.some.injEq] at hb
      exact hb ▸ hu
  cases call with
  | unlink c path =>
      obtain ⟨⟨w, r⟩, hw, h⟩ := Exec.bind_eq_ret.mp h
      cases h
      exact hunlink ha hw
  | rmdir c path =>
      obtain ⟨⟨w, r⟩, hw, h⟩ := Exec.bind_eq_ret.mp h
      cases h
      have htarget := rmdirTarget_eq ha
      have hchecks : c.resolve path ≠ [slash] ∧ ¬v.hasChild (c.resolve path) ∧
          (findNode v (c.resolve path)).any fun a => (v.node a).any isDirNode := by
        by_contra hno
        rw [VfsCall.removes, rmdirTarget, if_neg hno] at ha
        cases ha
      obtain ⟨hroot, hchild, hdir⟩ := hchecks
      rw [vfsRmdir, if_neg hroot] at hw
      split at hw
      · rename_i hnone
        rw [hnone] at hdir
        cases hdir
      rename_i b hb
      rw [hb, Option.any_some] at hdir
      rw [Exec.bind_eq_ret] at hw
      obtain ⟨n, hn, hw⟩ := hw
      rw [Vfs.load_ret hn, Option.any_some, isDirNode, Bool.and_eq_true, Bool.not_eq_true'] at hdir
      rw [if_neg (by simp [hdir.1, hdir.2]), if_neg hchild] at hw
      exact hunlink htarget hw
  | _ => cases ha

end Effects

/-! ## Freeing and renaming, spelled out -/

section Spelled

variable {v v' : Vfs} {a : Nat}

@[simp] theorem Vfs.freeBuf_nodes (data : Option Nat) : (v.freeBuf data).nodes = v.nodes := by
  cases data <;> rfl

@[simp] theorem Vfs.freeBuf_node (data : Option Nat) : (v.freeBuf data).node = v.node := by
  cases data <;> rfl

@[simp] theorem Vfs.freeBuf_cell (data : Option Nat) : (v.freeBuf data).cell = v.cell := by
  cases data <;> rfl

@[simp] theorem Vfs.freeBuf_mem (data : Option Nat) : (v.freeBuf data).mem = v.mem := by
  cases data <;> rfl

@[simp] theorem Vfs.freeBuf_nextObj (data : Option Nat) : (v.freeBuf data).nextObj = v.nextObj := by
  cases data <;> rfl

/-- The buffers without the one that `data` points at. -/
def dropBuf (buf : Nat → Option Buf) : Option Nat → Nat → Option Buf
  | none => buf
  | some b => Function.update buf b none

theorem Vfs.freeBuf_buf (data : Option Nat) : (v.freeBuf data).buf = dropBuf v.buf data := by
  cases data <;> rfl

/-- What `vfs_unlink` leaves behind, once it has found the node. -/
structure Unlinked (v v' : Vfs) (a : Nat) (n : Node) : Prop where
  live : v.node a = some n
  nodes : v'.nodes = v.nodes.erase a
  node : v'.node = Function.update v.node a none
  mem : v'.mem = v.mem
  supply : v'.nextObj = v.nextObj
  data : (n.dataRefs = none ∧ v'.cell = v.cell ∧ v'.buf = dropBuf v.buf n.data) ∨
    ∃ c k, n.dataRefs = some c ∧ v.cell c = some k ∧
      v'.cell = Function.update v.cell c (if k - 1 ≤ 0 then none else some (k - 1)) ∧
      v'.buf = if k - 1 ≤ 0 then dropBuf v.buf n.data else v.buf

theorem unlinkNode_ret (h : unlinkNode v a = .ret v') : ∃ n, Unlinked v v' a n := by
  rw [unlinkNode, Exec.bind_eq_ret] at h
  obtain ⟨n, hn, h⟩ := h
  replace hn := Vfs.load_ret hn
  refine ⟨n, ?_⟩
  rw [Exec.bind_eq_ret] at h
  obtain ⟨w, hw, h⟩ := h
  rw [dataRelease, Exec.bind_eq_ret] at hw
  obtain ⟨n', hn', hw⟩ := hw
  obtain rfl : n = n' := Option.some.inj (hn.symm.trans (Vfs.load_ret hn'))
  split at hw
  · rename_i hrefs
    cases hw
    rw [if_pos hrefs] at h
    cases h
    refine ⟨hn, ?_, ?_, ?_, ?_, .inl ⟨hrefs, ?_, ?_⟩⟩
    all_goals simp [Vfs.freeNode, Vfs.freeBuf_buf]
  · rename_i c hc
    rw [Exec.bind_eq_ret] at hw
    obtain ⟨k, hk, hw⟩ := hw
    replace hk : v.cell c = some k := Vfs.loadCell_ret hk
    cases hw
    rw [if_neg (by simp [hc])] at h
    cases h
    by_cases hlast : k - 1 ≤ 0
    · refine ⟨hn, ?_, ?_, ?_, ?_, .inr ⟨c, k, hc, hk, ?_, ?_⟩⟩
      all_goals simp [hlast, Vfs.freeNode, Vfs.setNode, Vfs.freeCell, Vfs.setCell, Vfs.freeBuf_buf]
    · refine ⟨hn, ?_, ?_, ?_, ?_, .inr ⟨c, k, hc, hk, ?_, ?_⟩⟩
      all_goals simp [hlast, Vfs.freeNode, Vfs.setNode, Vfs.setCell]

/-- A close counts down, and frees a synthetic node that nobody holds. -/
theorem vfsClose_ret {ret : Int} (h : vfsClose v a = .ret (v', ret)) :
    ∃ n, v.node a = some n ∧
      ((∃ k, v' = v.setNode a { n with refs := k }) ∨
        (n.synth = true ∧ a ≠ rootAddr ∧ n.refs ≤ 1 ∧ v'.nodes = v.nodes ∧
          v'.node = Function.update v.node a none ∧ v'.buf = dropBuf v.buf n.data ∧
          v'.cell = v.cell ∧ v'.mem = v.mem ∧ v'.nextObj = v.nextObj)) := by
  rw [vfsClose, Exec.bind_eq_ret] at h
  obtain ⟨n, hn, h⟩ := h
  refine ⟨n, Vfs.load_ret hn, ?_⟩
  by_cases hcount : a ≠ rootAddr ∧ n.refs > 0
  · rw [if_pos hcount] at h
    dsimp only at h
    split at h
    · rename_i hfree
      cases h
      refine .inr ⟨hfree.1, hfree.2.1, Int.le_of_sub_nonpos hfree.2.2, ?_, ?_, ?_, ?_, ?_, ?_⟩
      all_goals simp [Vfs.freeNode, Vfs.setNode, Vfs.freeBuf_buf]
    · cases h
      exact .inl ⟨_, rfl⟩
  · rw [if_neg hcount] at h
    dsimp only at h
    split at h
    · rename_i hfree
      cases h
      refine .inr ⟨hfree.1, hfree.2.1, Int.le_trans hfree.2.2 (by decide), ?_, ?_, ?_, ?_, ?_, ?_⟩
      all_goals simp [Vfs.freeNode, Vfs.setNode, Vfs.freeBuf_buf]
    · cases h
      exact .inl ⟨n.refs, rfl⟩

/-- The path of the node at `x` after the node at `a`, a directory when
`dir` says so, was renamed. -/
def movedPath (v : Vfs) (a : Nat) (dir : Bool) (old new : CStr) (x : Nat) (path : CStr) : CStr :=
  if x = a then new.take (pathMax - 1)
  else if dir ∧ x ∈ v.nodes ∧ isBelow old path then rebase old new path
  else path

/-- A rename changes paths and nothing else. -/
theorem renameNode_ret {old new : CStr} {ret : Int} (h : renameNode v a old new = .ret (v', ret)) :
    ∃ n, v.node a = some n ∧ v' = { v with
      node := fun x => (v.node x).map fun m =>
        { m with path := movedPath v a n.dirBit old new x m.path } } := by
  rw [renameNode, Exec.bind_eq_ret] at h
  obtain ⟨n, hn, h⟩ := h
  replace hn := Vfs.load_ret hn
  have hdir : (isDirNode n || n.dirBit) = n.dirBit := by
    unfold isDirNode
    cases n.dirBit <;> simp
  refine ⟨n, hn, ?_⟩
  rw [hdir] at h
  by_cases hd : n.dirBit = true
  · rw [if_pos hd] at h
    cases h
    simp only [moveBelow, Vfs.setNode, hd]
    congr 1
    funext x
    by_cases hx : x = a
    · subst hx
      simp [hn, movedPath]
    · rw [Function.update_of_ne hx]
      congr 1
      funext m
      simp only [movedPath, hx, if_false, ne_eq, not_false_eq_true, true_and]
      split <;> rfl
  · rw [if_neg hd] at h
    cases h
    simp only [Vfs.setNode, Bool.not_eq_true] at hd ⊢
    congr 1
    funext x
    by_cases hx : x = a
    · subst hx
      simp [hn, movedPath]
    · rw [Function.update_of_ne hx]
      cases v.node x with
      | none => rfl
      | some m => simp [movedPath, hx, hd]

end Spelled

/-! ## Runs of the file system -/

/-- The file system starts empty; what memory holds and whether there is
enough of it is open. -/
def VfsBoot (v : Vfs) : Prop :=
  ∃ mem fb, v = emptyVfs mem fb

def vfsSystem : System Vfs VfsCall where
  init := VfsBoot
  step := fun v call v' => vfsCall v call = .ret v'

/-- Several calls in a row. -/
def vfsCalls (v : Vfs) : List VfsCall → Exec Vfs
  | [] => .ret v
  | call :: calls => do
      let v ← vfsCall v call
      vfsCalls v calls

/-- Calls in a row are a run. -/
theorem trace_vfsCalls {tr : List (Vfs × VfsCall × Vfs)} {v v' : Vfs} (h : vfsSystem.Trace tr v)
    (calls : List VfsCall) (hc : vfsCalls v calls = .ret v') :
    ∃ tr', vfsSystem.Trace tr' v' ∧ tr'.length = tr.length + calls.length := by
  induction calls generalizing tr v with
  | nil =>
      cases hc
      exact ⟨tr, h, rfl⟩
  | cons call calls ih =>
      obtain ⟨w, hw, hc⟩ := Exec.bind_eq_ret.mp hc
      obtain ⟨tr', htr, hlen⟩ := ih (.snoc h hw) hc
      exact ⟨tr', htr, by rw [hlen, List.length_cons, List.length_cons]; omega⟩

/-- The end of calls in a row is reached, in any system that makes them. -/
theorem reach_vfsCalls {S : System Vfs VfsCall} {v v' : Vfs}
    (hstep : ∀ {w call w'}, vfsCall w call = .ret w' → S.step w call w') (h : S.Reach v)
    (calls : List VfsCall) (hc : vfsCalls v calls = .ret v') : S.Reach v' := by
  induction calls generalizing v with
  | nil =>
      cases hc
      exact h
  | cons call calls ih =>
      obtain ⟨w, hw, hc⟩ := Exec.bind_eq_ret.mp hc
      exact ih (.step h trivial (hstep hw)) hc

/-- Memory without end, whose blocks are full of `b`. -/
def memoryOf (b : UInt8) : Oracle := ⟨fun _ => .block, fun _ _ => b⟩

/-- A caller in the root directory while there is no task. -/
def rootCaller : Caller := ⟨str "/", [], fun _ => none⟩

namespace NodeTable

variable {v v' : Vfs}

theorem of_boot (h : VfsBoot v) : NodeTable v := by
  obtain ⟨mem, fb, rfl⟩ := h
  refine ⟨.nil, ⟨rootNode, rfl, rfl⟩, by simp [emptyVfs], by simp [emptyVfs], ?_, ?_⟩
  · intro a n hn _
    by_cases ha : a = rootAddr
    · exact .inl ha
    · simp [emptyVfs, Function.update_of_ne ha] at hn
  · intro a ha
    have hroot : a ≠ rootAddr := Nat.ne_of_gt ha
    simp [emptyVfs, Function.update_of_ne hroot]

theorem lt_supply (h : NodeTable v) {a : Nat} {n : Node} (hn : v.node a = some n) :
    a < v.nextObj := by
  by_contra hge
  rw [h.fresh a (Nat.le_of_not_lt hge)] at hn
  cases hn

/-- A new node at an address of the supply. -/
theorem cons {a : Nat} {n : Node} (h : NodeTable v) (hlo : v.nextObj ≤ a) (hhi : a < v'.nextObj)
    (hnode : v'.node = Function.update v.node a (some n))
    (hnodes : v'.nodes = if n.synth then v.nodes else a :: v.nodes) : NodeTable v' := by
  have hoff : a ∉ v.nodes := by
    intro ha
    obtain ⟨m, hm, _⟩ := h.listed a ha
    exact Nat.lt_irrefl _ (Nat.lt_of_lt_of_le (h.lt_supply hm) hlo)
  obtain ⟨r, hr, hdir⟩ := h.root
  have hroot : rootAddr ≠ a := Nat.ne_of_lt (Nat.lt_of_lt_of_le (h.lt_supply hr) hlo)
  have hmem : ∀ x, x ∈ v'.nodes ↔ (x = a ∧ n.synth = false) ∨ x ∈ v.nodes := by
    intro x
    rw [hnodes]
    cases n.synth <;> simp
  refine ⟨?_, ⟨r, by rw [hnode, Function.update_of_ne hroot, hr], hdir⟩, ?_, ?_, ?_, ?_⟩
  · rw [hnodes]
    split
    · exact h.nodup
    · exact List.nodup_cons.mpr ⟨hoff, h.nodup⟩
  · rw [hmem]
    rintro (⟨hra, _⟩ | hrn)
    · exact hroot hra
    · exact h.rootOff hrn
  · intro x hx
    rw [hnode]
    rcases (hmem x).mp hx with ⟨rfl, hs⟩ | hx
    · exact ⟨n, Function.update_self _ _ _, hs⟩
    · have hxa : x ≠ a := fun hxa => hoff (hxa ▸ hx)
      rw [Function.update_of_ne hxa]
      exact h.listed x hx
  · intro x m hm hx
    rw [hnode] at hm
    by_cases hxa : x = a
    · subst hxa
      rw [Function.update_self, Option.some.injEq] at hm
      subst hm
      rw [hmem, not_or, not_and] at hx
      exact .inr (by simpa using hx.1 rfl)
    · rw [Function.update_of_ne hxa] at hm
      exact h.unlisted x m hm fun hxn => hx ((hmem x).mpr (.inr hxn))
  · intro x hx
    have hxa : x ≠ a := Nat.ne_of_gt (Nat.lt_of_lt_of_le hhi hx)
    rw [hnode, Function.update_of_ne hxa]
    exact h.fresh x (Nat.le_trans hlo (Nat.le_of_lt (Nat.lt_of_lt_of_le hhi hx)))

/-- The list is kept, and every address keeps what the table reads of it. -/
theorem of_same (h : NodeTable v) (hnodes : v'.nodes = v.nodes)
    (hsup : v.nextObj ≤ v'.nextObj)
    (hnode : ∀ x, (v'.node x).map (fun n => (n.mode, n.synth)) =
      (v.node x).map fun n => (n.mode, n.synth)) : NodeTable v' := by
  have hback : ∀ x n, v.node x = some n →
      ∃ m, v'.node x = some m ∧ m.mode = n.mode ∧ m.synth = n.synth := by
    intro x n hn
    have hx := hnode x
    rw [hn, Option.map_some, Option.map_eq_some_iff] at hx
    obtain ⟨m, hm, he⟩ := hx
    exact ⟨m, hm, (Prod.ext_iff.mp he).1, (Prod.ext_iff.mp he).2⟩
  obtain ⟨r, hr, hdir⟩ := h.root
  obtain ⟨r', hr', hmode, _⟩ := hback _ _ hr
  refine ⟨hnodes ▸ h.nodup, ⟨r', hr', by rw [← hdir, Node.dirBit, Node.dirBit, hmode]⟩,
    hnodes ▸ h.rootOff, ?_, ?_, ?_⟩
  · intro a ha
    obtain ⟨n, hn, hs⟩ := h.listed a (hnodes ▸ ha)
    obtain ⟨m, hm, _, hms⟩ := hback a n hn
    exact ⟨m, hm, hms.trans hs⟩
  · intro a m hm ha
    have hx := (hnode a).symm
    rw [hm, Option.map_some, Option.map_eq_some_iff] at hx
    obtain ⟨n, hn, he⟩ := hx
    have hs : n.synth = m.synth := (Prod.ext_iff.mp he).2
    rw [← hs]
    exact h.unlisted a n hn (hnodes ▸ ha)
  · intro a ha
    have hx := hnode a
    rw [h.fresh a (Nat.le_trans hsup ha), Option.map_none, Option.map_eq_none_iff] at hx
    exact hx

theorem of_sameNames (h : NodeTable v) (hs : SameNames v v') : NodeTable v' := by
  refine h.of_same hs.nodes hs.supply fun x => ?_
  have hx := congrArg (Option.map fun l : Label => (l.mode, l.synth)) (congrFun hs.label x)
  simp only [Vfs.label, Option.map_map] at hx
  exact hx

theorem of_untouched (h : NodeTable v) (hu : Untouched v v') : NodeTable v' :=
  h.of_same hu.nodes hu.supply fun x => by rw [hu.node]

/-- A store into a node that keeps its mode and its kind. -/
theorem of_setNode (h : NodeTable v) {a : Nat} {n n' : Node} (hn : v.node a = some n)
    (hmode : n'.mode = n.mode) (hsynth : n'.synth = n.synth) : NodeTable (v.setNode a n') := by
  refine h.of_same rfl (Nat.le_refl _) fun x => ?_
  simp only [Vfs.setNode, Function.update_apply]
  split
  · rename_i hx
    rw [hx, hn, Option.map_some, Option.map_some, hmode, hsynth]
  · rfl

/-- A node other than the root is freed and taken off the list. -/
theorem of_free (h : NodeTable v) {a : Nat} (hroot : a ≠ rootAddr)
    (hnodes : v'.nodes = v.nodes.erase a) (hnode : v'.node = Function.update v.node a none)
    (hsup : v'.nextObj = v.nextObj) : NodeTable v' := by
  have hmem : ∀ x, x ∈ v'.nodes ↔ x ≠ a ∧ x ∈ v.nodes := by
    intro x
    rw [hnodes]
    exact h.nodup.mem_erase_iff
  obtain ⟨r, hr, hdir⟩ := h.root
  refine ⟨hnodes ▸ h.nodup.erase a,
    ⟨r, by rw [hnode, Function.update_of_ne (Ne.symm hroot), hr], hdir⟩, ?_, ?_, ?_, ?_⟩
  · rw [hmem]
    exact fun hr => h.rootOff hr.2
  · intro x hx
    obtain ⟨hxa, hx⟩ := (hmem x).mp hx
    rw [hnode, Function.update_of_ne hxa]
    exact h.listed x hx
  · intro x m hm hx
    rw [hnode] at hm
    by_cases hxa : x = a
    · subst hxa
      rw [Function.update_self] at hm
      cases hm
    · rw [Function.update_of_ne hxa] at hm
      exact h.unlisted x m hm fun hxn => hx ((hmem x).mpr ⟨hxa, hxn⟩)
  · intro x hx
    rw [hsup] at hx
    rw [hnode]
    by_cases hxa : x = a
    · rw [hxa, Function.update_self]
    · rw [Function.update_of_ne hxa]
      exact h.fresh x hx

/-- Every effect keeps the table. -/
theorem of_effect {call : VfsCall} (h : NodeTable v) (he : CallEffect v v' call) : NodeTable v' := by
  cases he with
  | idle hu => exact h.of_untouched hu
  | opened hn hl hv =>
      subst hv
      exact h.of_setNode hn rfl rfl
  | made hm _ => exact h.cons hm.fresh.1 hm.fresh.2 hm.node hm.nodes
  | @linked _ _ _ a target k n t hl _ =>
      have ht : NodeTable (v.setNode target { t with dataRefs := some k }) :=
        h.of_setNode hl.live rfl rfl
      refine ht.cons (n := n) hl.fresh.1 hl.fresh.2 hl.node ?_
      rw [hl.nodes, hl.real]
      rfl
  | wrote hw => exact h.of_sameNames (.of_vfsWrite hw)
  | truncated hw => exact h.of_sameNames (.of_vfsTruncate hw)
  | @closed a ret hc =>
      obtain ⟨n, hn, ⟨k, rfl⟩ | ⟨hsynth, hroot, _, hnodes, hnode, _, _, _, hobj⟩⟩ :=
        vfsClose_ret hc
      · exact h.of_setNode hn rfl rfl
      · refine h.of_free hroot ?_ hnode hobj
        -- a synthetic node is on no list
        rw [hnodes, List.erase_of_not_mem]
        intro ha
        obtain ⟨m, hm, hms⟩ := h.listed a ha
        rw [hn, Option.some.injEq] at hm
        rw [hm, hms] at hsynth
        cases hsynth
  | unlinked _ ha hu =>
      obtain ⟨n, hu⟩ := unlinkNode_ret hu
      exact h.of_free (fun hr => h.rootOff (hr ▸ ha)) hu.nodes hu.node hu.supply
  | renamed _ hr =>
      obtain ⟨n, _, rfl⟩ := renameNode_ret hr
      refine h.of_same rfl (Nat.le_refl _) fun x => ?_
      rw [Option.map_map]
      rfl

theorem step {call : VfsCall} (h : NodeTable v) (hs : vfsCall v call = .ret v') :
    NodeTable v' :=
  h.of_effect (call_effect h.fresh hs)

/-- Addresses are only ever taken from the supply. -/
theorem supply_step {call : VfsCall} (h : NodeTable v) (hs : vfsCall v call = .ret v') :
    v.nextObj ≤ v'.nextObj := by
  cases call_effect h.fresh hs with
  | idle hu => exact hu.supply
  | opened _ _ hv => exact hv ▸ Nat.le_refl _
  | made hm _ => exact Nat.le_of_lt (Nat.lt_of_le_of_lt hm.fresh.1 hm.fresh.2)
  | linked hl _ => exact Nat.le_of_lt (Nat.lt_of_le_of_lt hl.fresh.1 hl.fresh.2)
  | wrote hw => exact (SameNames.of_vfsWrite hw).supply
  | truncated hw => exact (SameNames.of_vfsTruncate hw).supply
  | closed hc =>
      obtain ⟨n, _, ⟨k, rfl⟩ | ⟨_, _, _, _, _, _, _, _, hobj⟩⟩ := vfsClose_ret hc
      · exact Nat.le_refl _
      · exact Nat.le_of_eq hobj.symm
  | unlinked _ _ hu =>
      obtain ⟨n, hu⟩ := unlinkNode_ret hu
      exact Nat.le_of_eq hu.supply.symm
  | renamed _ hr =>
      obtain ⟨n, _, rfl⟩ := renameNode_ret hr
      exact Nat.le_refl _

theorem of_reach (h : vfsSystem.Reach v) : NodeTable v :=
  System.ReachVia.invariant (fun _ => of_boot) (fun _ _ _ hi _ hs => hi.step hs) h

end NodeTable

end LiteBSD
