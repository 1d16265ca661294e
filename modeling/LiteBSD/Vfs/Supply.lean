/-
# `LiteBSD.Vfs.Supply` — what is there lies below the supply, and counts are never negative

Addresses come from a supply.  No buffer and no counter is at an address that
the supply has not reached (`Stocked`), whatever call is made; a call that takes
one moves the supply past it, and one that stores needs one to store into.

`refs` starts at `1`, goes up with `vfs_open`, and `vfs_close` takes nothing
from a count that is `0`.  So no node has a negative count, and counting a
node up and down again changes nothing (`Settled`).
-/
import LiteBSD.Vfs.ReadOnly

namespace LiteBSD

open Lib

/-! ## Buffers and counters -/

/-- No buffer and no counter of `v'` beyond its supply is new. -/
structure Stocked (v v' : Vfs) : Prop where
  supply : v.nextObj ≤ v'.nextObj
  buf : ∀ b, v'.nextObj ≤ b → v.buf b = none → v'.buf b = none
  cell : ∀ c, v'.nextObj ≤ c → v.cell c = none → v'.cell c = none

namespace Stocked

variable {v v' v'' : Vfs} {a : Nat}

theorem refl (v : Vfs) : Stocked v v := ⟨Nat.le_refl _, fun _ _ h => h, fun _ _ h => h⟩

theorem trans (h : Stocked v v') (h' : Stocked v' v'') : Stocked v v'' :=
  ⟨Nat.le_trans h.supply h'.supply,
    fun b hb hn => h'.buf b hb (h.buf b (Nat.le_trans h'.supply hb) hn),
    fun c hc hn => h'.cell c hc (h.cell c (Nat.le_trans h'.supply hc) hn)⟩

theorem of_eq (hbuf : v'.buf = v.buf) (hcell : v'.cell = v.cell) (hsup : v.nextObj ≤ v'.nextObj) :
    Stocked v v' :=
  ⟨hsup, fun b _ hn => (congrFun hbuf b).trans hn, fun c _ hn => (congrFun hcell c).trans hn⟩

/-- An update where there is something, or below the supply. -/
theorem none_of_update {β : Type} {f : Nat → Option β} {d b k : Nat} (hd : f d ≠ none ∨ d < k) (x : Option β)
    (hb : k ≤ b) (hn : f b = none) : Function.update f d x b = none := by
  have hne : b ≠ d := by
    rintro rfl
    exact hd.elim (fun hs => hs hn) fun hlt => absurd hb (Nat.not_le.mpr hlt)
  rw [Function.update_of_ne hne, hn]

/-- A store into a buffer that is there. -/
theorem setBuf {d : Nat} {m : Buf} (hd : v.buf d = some m) (m' : Buf) : Stocked v (v.setBuf d m') :=
  ⟨Nat.le_refl _, fun _ hb hn => none_of_update (.inl (by simp [hd])) _ hb hn, fun _ _ h => h⟩

theorem setCell {c : Nat} (hc : v.cell c ≠ none ∨ c < v.nextObj) (k : Int) : Stocked v (v.setCell c k) :=
  ⟨Nat.le_refl _, fun _ _ h => h, fun _ hb hn => none_of_update hc _ hb hn⟩

theorem kmalloc {size : Nat} {p : Option Nat} (h : v.kmalloc size = .ret (v', p)) : Stocked v v' := by
  have hu := Untouched.kmalloc h
  exact of_eq hu.buf hu.cell hu.supply

theorem kmallocBuf {size : Nat} {p : Option Nat} (h : v.kmallocBuf size = .ret (v', p)) :
    Stocked v v' := by
  rcases Vfs.kmallocBuf_ret h with ⟨rfl, hu⟩ | ⟨rfl, rfl⟩
  · exact of_eq hu.buf hu.cell hu.supply
  · refine ⟨Nat.le_succ _, fun b hb hn => ?_, fun _ _ h => h⟩
    exact (Function.update_of_ne (Nat.ne_of_gt hb) _ _).trans hn

theorem storeBytes {data : Option Nat} {offset : Nat} {src : List UInt8}
    (h : v.storeBytes data offset src = .ret v') : Stocked v v' := by
  rcases Vfs.storeBytes_ret h with ⟨_, rfl⟩ | ⟨b, m, _, hm, _, rfl⟩
  · exact refl _
  · exact setBuf hm _

theorem copyBytes {dst k : Nat} {data : Option Nat} (h : v.copyBytes dst data k = .ret v') :
    Stocked v v' := by
  rcases Vfs.copyBytes_ret h with ⟨_, rfl⟩ | ⟨_, _, m, _, _, hm, rfl⟩
  · exact refl _
  · exact setBuf hm _

theorem zeroBytes {first last : Nat} {data : Option Nat} (h : v.zeroBytes data first last = .ret v') :
    Stocked v v' := by
  unfold Vfs.zeroBytes at h
  split at h
  · cases h
    exact refl _
  · cases data with
    | none => cases h
    | some b =>
        obtain ⟨m, hm, h⟩ := Exec.bind_eq_ret.mp h
        split at h
        · cases h
          exact setBuf (Vfs.loadBuf_ret hm) _
        · cases h

theorem drop (data : Option Nat) (hbuf : v'.buf = dropBuf v.buf data)
    (hcell : ∀ c, v.cell c = none → v'.cell c = none) (hsup : v'.nextObj = v.nextObj) : Stocked v v' := by
  refine ⟨Nat.le_of_eq hsup.symm, fun b _ hn => ?_, fun c _ hn => hcell c hn⟩
  rw [hbuf]
  cases data with
  | none => exact hn
  | some d =>
      by_cases hb : b = d
      · rw [hb]
        exact Function.update_self _ _ _
      · exact (Function.update_of_ne hb _ _).trans hn

theorem freeBuf (v : Vfs) (data : Option Nat) : Stocked v (v.freeBuf data) :=
  drop data (Vfs.freeBuf_buf data) (fun _ hc => (congrFun (Vfs.freeBuf_cell data) _).trans hc)
    (Vfs.freeBuf_nextObj data)

theorem of_cowCopy {n : Node} {copied : Option (Option Nat)} (h : cowCopy v n = .ret (v', copied)) :
    Stocked v v' := by
  unfold cowCopy at h
  split at h
  · obtain ⟨⟨w, p⟩, hw, h⟩ := Exec.bind_eq_ret.mp h
    refine (kmallocBuf hw).trans ?_
    cases p with
    | none =>
        cases h
        exact refl _
    | some b =>
        obtain ⟨u, hu, h⟩ := Exec.bind_eq_ret.mp h
        cases h
        exact copyBytes hu
  · cases h
    exact refl _

theorem of_dataCow {ret : Int} (h : dataCow v a = .ret (v', ret)) : Stocked v v' := by
  obtain ⟨n, _, h⟩ := Exec.bind_eq_ret.mp h
  split at h
  · cases h
    exact refl _
  · rename_i c _
    obtain ⟨refs, hrefs, h⟩ := Exec.bind_eq_ret.mp h
    split at h
    · cases h
      exact refl _
    · obtain ⟨⟨w, copied⟩, hw, h⟩ := Exec.bind_eq_ret.mp h
      have hcell : Stocked v (v.setCell c (refs - 1)) := setCell (.inl (by simp [Vfs.loadCell_ret hrefs])) _
      refine hcell.trans ((of_cowCopy hw).trans ?_)
      cases copied with
      | none =>
          cases h
          exact refl _
      | some data =>
          obtain ⟨⟨u, p⟩, hu, h⟩ := Exec.bind_eq_ret.mp h
          refine (kmalloc hu).trans ?_
          cases p with
          | none =>
              cases h
              exact freeBuf _ _
          | some c' =>
              cases h
              obtain ⟨rfl, hobj⟩ := (Vfs.kmalloc_ret hu).2 c' rfl
              have hlt : w.nextObj < u.nextObj := hobj ▸ Nat.lt_succ_self _
              exact (setCell (.inr hlt) 1).trans (of_eq rfl rfl (Nat.le_refl _))

theorem of_growData {required : Nat} {ret : Int} (h : growData v a required = .ret (v', ret)) :
    Stocked v v' := by
  obtain ⟨n, _, h⟩ := Exec.bind_eq_ret.mp h
  split at h
  · split at h
    · cases h
    · obtain ⟨⟨w, p⟩, hw, h⟩ := Exec.bind_eq_ret.mp h
      refine (kmallocBuf hw).trans ?_
      cases p with
      | none =>
          cases h
          exact refl _
      | some b =>
          obtain ⟨u, hu, h⟩ := Exec.bind_eq_ret.mp h
          cases h
          exact (copyBytes hu).trans ((freeBuf u n.data).trans (of_eq rfl rfl (Nat.le_refl _)))
  · cases h
    exact refl _

theorem of_writeData {offset : Nat} {buffer : List UInt8} {ret : Int}
    (h : writeData v a offset buffer = .ret (v', ret)) : Stocked v v' := by
  obtain ⟨⟨v₁, r₁⟩, h₁, h⟩ := Exec.bind_eq_ret.mp h
  refine (of_dataCow h₁).trans ?_
  dsimp only at h
  split at h
  · cases h
    exact refl _
  · obtain ⟨⟨v₂, r₂⟩, h₂, h⟩ := Exec.bind_eq_ret.mp h
    refine (of_dataCow h₂).trans ?_
    dsimp only at h
    split at h
    · cases h
      exact refl _
    · split at h
      · cases h
        exact refl _
      · obtain ⟨⟨v₃, r₃⟩, h₃, h⟩ := Exec.bind_eq_ret.mp h
        refine (of_growData h₃).trans ?_
        dsimp only at h
        split at h
        · cases h
          exact refl _
        · obtain ⟨n, _, h⟩ := Exec.bind_eq_ret.mp h
          obtain ⟨v₄, h₄, h⟩ := Exec.bind_eq_ret.mp h
          cases h
          refine (storeBytes h₄).trans ?_
          split
          · exact of_eq rfl rfl (Nat.le_refl _)
          · exact refl _

theorem of_vfsWrite {offset : Nat} {buffer : List UInt8} {ret : Int}
    (h : vfsWrite v a offset buffer = .ret (v', ret)) : Stocked v v' := by
  obtain ⟨n, _, h⟩ := Exec.bind_eq_ret.mp h
  repeat' split at h
  all_goals first
    | exact of_writeData h
    | cases h; exact of_eq rfl rfl (Nat.le_refl _)

theorem of_vfsTruncate {length : Nat} {ret : Int} (h : vfsTruncate v a length = .ret (v', ret)) :
    Stocked v v' := by
  obtain ⟨n, _, h⟩ := Exec.bind_eq_ret.mp h
  split at h
  · cases h
    exact refl _
  · split at h
    · cases h
      exact refl _
    · obtain ⟨⟨v₁, r₁⟩, h₁, h⟩ := Exec.bind_eq_ret.mp h
      refine (of_dataCow h₁).trans ?_
      dsimp only at h
      split at h
      · cases h
        exact refl _
      · obtain ⟨n₁, _, h⟩ := Exec.bind_eq_ret.mp h
        split at h
        · cases h
          exact of_eq rfl rfl (Nat.le_refl _)
        · split at h
          · cases h
            exact refl _
          · obtain ⟨⟨v₂, r₂⟩, h₂, h⟩ := Exec.bind_eq_ret.mp h
            refine (of_growData h₂).trans ?_
            dsimp only at h
            split at h
            · cases h
              exact refl _
            · obtain ⟨n₂, _, h⟩ := Exec.bind_eq_ret.mp h
              obtain ⟨v₃, h₃, h⟩ := Exec.bind_eq_ret.mp h
              cases h
              exact (zeroBytes h₃).trans (of_eq rfl rfl (Nat.le_refl _))

/-- A new node with its data. -/
theorem of_newNode {n : Node} (h : NewNode v v' a n) : Stocked v v' := by
  have hsup : v.nextObj ≤ v'.nextObj := Nat.le_of_lt (Nat.lt_of_le_of_lt h.fresh.1 h.fresh.2)
  rcases h.data with ⟨_, _, hbuf⟩ | ⟨d, m, _, _, hd, _, hbuf⟩
  · exact of_eq hbuf h.cell hsup
  · refine ⟨hsup, fun b hb hn => ?_, fun c _ hn => (congrFun h.cell c).trans hn⟩
    rw [hbuf]
    exact none_of_update (.inr hd) _ hb hn

theorem of_vfsClose {ret : Int} (h : vfsClose v a = .ret (v', ret)) : Stocked v v' := by
  obtain ⟨n, _, ⟨k, rfl⟩ | ⟨_, _, _, _, _, hbuf, hcell, _, hobj⟩⟩ := vfsClose_ret h
  · exact of_eq rfl rfl (Nat.le_refl _)
  · exact drop n.data hbuf (fun _ hc => (congrFun hcell _).trans hc) hobj

/-- A node of a link gets a counter from the supply, or one that is there. -/
theorem of_newLink {target c : Nat} {n t : Node} (h : NewLink v v' a target c n t) : Stocked v v' := by
  refine ⟨Nat.le_of_lt (Nat.lt_of_le_of_lt h.fresh.1 h.fresh.2), fun b _ hn => (congrFun h.buf b).trans hn, ?_⟩
  intro b hb hn
  rcases h.counter with ⟨k, _, hk, hcell⟩ | ⟨_, _, hlt, hcell⟩
  · rw [hcell]
    exact none_of_update (.inl (by simp [hk])) _ hb hn
  · rw [hcell]
    exact none_of_update (.inr hlt) _ hb hn

theorem of_unlinkNode (h : unlinkNode v a = .ret v') : Stocked v v' := by
  obtain ⟨n, hu⟩ := unlinkNode_ret h
  rcases hu.data with ⟨_, hcell, hbuf⟩ | ⟨c, k, _, hk, hcell, hbuf⟩
  · exact drop n.data hbuf (fun _ hc => (congrFun hcell _).trans hc) hu.supply
  · have hnone : ∀ x, v.cell x = none → v'.cell x = none := by
      intro x hx
      rw [hcell]
      exact none_of_update (k := 0) (.inl (by simp [hk])) _ (Nat.zero_le _) hx
    split at hbuf
    · exact drop n.data hbuf hnone hu.supply
    · exact drop none hbuf hnone hu.supply

theorem step {call : VfsCall} (ht : NodeTable v) (hs : vfsCall v call = .ret v') : Stocked v v' := by
  cases call_effect ht.fresh hs with
  | idle hu => exact of_eq hu.buf hu.cell hu.supply
  | opened _ _ hv =>
      subst hv
      exact of_eq rfl rfl (Nat.le_refl _)
  | made hm _ => exact of_newNode hm
  | linked hl _ => exact of_newLink hl
  | wrote hw => exact of_vfsWrite hw
  | truncated hw => exact of_vfsTruncate hw
  | closed hc => exact of_vfsClose hc
  | unlinked _ _ hu => exact of_unlinkNode hu
  | renamed _ hr =>
      obtain ⟨n, _, rfl⟩ := renameNode_ret hr
      exact of_eq rfl rfl (Nat.le_refl _)

end Stocked

/-! ## Counts -/

/-- The counts of `v'` are those of `v`, and those of new nodes are `1`. -/
def CountsKept (v v' : Vfs) : Prop :=
  ∀ x n', v'.node x = some n' → (∃ n, v.node x = some n ∧ n'.refs = n.refs) ∨ n'.refs = 1

namespace CountsKept

variable {v v' v'' : Vfs} {a : Nat}

theorem of_eq (h : v'.node = v.node) : CountsKept v v' :=
  fun _ n' hn' => .inl ⟨n', h ▸ hn', rfl⟩

theorem trans (h : CountsKept v v') (h' : CountsKept v' v'') : CountsKept v v'' := by
  intro x n'' hn''
  rcases h' x n'' hn'' with ⟨n', hn', he⟩ | hone
  · rw [he]
    exact h x n' hn'
  · exact .inr hone

theorem setNode {n : Node} (h : n.refs = 1 ∨ ∃ m, v.node a = some m ∧ n.refs = m.refs) :
    CountsKept v (v.setNode a n) := by
  intro x n' hn'
  by_cases hx : x = a
  · subst hx
    rw [Vfs.node_setNode_self, Option.some.injEq] at hn'
    subst hn'
    exact h.symm
  · rw [Vfs.node_setNode_ne hx] at hn'
    exact .inl ⟨n', hn', rfl⟩

theorem of_sameNames (h : SameNames v v') : CountsKept v v' := by
  intro x n' hn'
  have hl := congrFun h.label x
  rw [Vfs.label, Vfs.label, hn', Option.map_some] at hl
  obtain ⟨n, hn, he⟩ := Option.map_eq_some_iff.mp hl.symm
  exact .inl ⟨n, hn, (congrArg Label.refs he).symm⟩

theorem of_newNode {n : Node} (h : NewNode v v' a n) : CountsKept v v' := by
  intro x n' hn'
  rw [h.node] at hn'
  by_cases hx : x = a
  · rw [hx, Function.update_self, Option.some.injEq] at hn'
    exact .inr (hn' ▸ h.counted)
  · rw [Function.update_of_ne hx] at hn'
    exact .inl ⟨n', hn', rfl⟩

theorem drop (h : v'.node = Function.update v.node a none) : CountsKept v v' := by
  intro x n' hn'
  rw [h] at hn'
  by_cases hx : x = a
  · rw [hx, Function.update_self] at hn'
    cases hn'
  · rw [Function.update_of_ne hx] at hn'
    exact .inl ⟨n', hn', rfl⟩

theorem of_shareCell {target : Nat} {p : Option Nat} (h : shareCell v target = .ret (v', p)) :
    CountsKept v v' := by
  obtain ⟨t, ht, h⟩ := Exec.bind_eq_ret.mp h
  split at h
  · cases h
    exact of_eq rfl
  · obtain ⟨⟨w, q⟩, hw, h⟩ := Exec.bind_eq_ret.mp h
    have hu := Untouched.kmalloc hw
    refine (of_eq hu.node).trans ?_
    cases q with
    | none =>
        cases h
        exact of_eq rfl
    | some c =>
        cases h
        have hset : CountsKept w (w.setNode target { t with dataRefs := some c }) :=
          setNode (.inr ⟨t, hu.node ▸ Vfs.load_ret ht, rfl⟩)
        exact hset.trans (of_eq rfl)

theorem of_dataShare {target : Nat} {ret : Int} (h : dataShare v a target = .ret (v', ret)) :
    CountsKept v v' := by
  obtain ⟨t, _, h⟩ := Exec.bind_eq_ret.mp h
  split at h
  · cases h
    exact of_eq rfl
  · obtain ⟨⟨w, p⟩, hw, h⟩ := Exec.bind_eq_ret.mp h
    refine (of_shareCell hw).trans ?_
    cases p with
    | none =>
        cases h
        exact of_eq rfl
    | some c =>
        obtain ⟨refs, _, h⟩ := Exec.bind_eq_ret.mp h
        obtain ⟨t', _, h⟩ := Exec.bind_eq_ret.mp h
        obtain ⟨n, hn, h⟩ := Exec.bind_eq_ret.mp h
        cases h
        have hcell : CountsKept w (w.setCell c (refs + 1)) := of_eq rfl
        exact hcell.trans (setNode (.inr ⟨n, Vfs.load_ret hn, rfl⟩))

/-- The name that a link makes is held once. -/
theorem of_linkNode {resolved : CStr} {target : Nat} {ret : Int}
    (h : linkNode v resolved target = .ret (v', ret)) : CountsKept v v' := by
  obtain ⟨t, _, h⟩ := Exec.bind_eq_ret.mp h
  obtain ⟨⟨w, p⟩, hw, h⟩ := Exec.bind_eq_ret.mp h
  refine (of_eq (Untouched.kmalloc hw).node).trans ?_
  cases p with
  | none =>
      cases h
      exact of_eq rfl
  | some a =>
      obtain ⟨⟨x, r⟩, hx, h⟩ := Exec.bind_eq_ret.mp h
      have hnew : CountsKept w (w.setNode a { freshNode resolved t.mode with ino := w.nextIno }) :=
        setNode (.inl rfl)
      -- the number taken changes no node
      have hshare : CountsKept (w.setNode a { freshNode resolved t.mode with ino := w.nextIno }) x :=
        fun y n' hn' => of_dataShare hx y n' hn'
      refine hnew.trans (hshare.trans ?_)
      dsimp only at h
      split at h
      · cases h
        exact drop rfl
      · cases h
        exact of_eq rfl

theorem of_vfsLink {c : Caller} {path targetPath : CStr} {ret : Int}
    (h : vfsLink v c path targetPath = .ret (v', ret)) : CountsKept v v' := by
  unfold vfsLink at h
  dsimp only at h
  split at h
  · cases h
    exact of_eq rfl
  · split at h
    · cases h
      exact of_eq rfl
    · split at h
      · cases h
        exact of_eq rfl
      · obtain ⟨t, _, h⟩ := Exec.bind_eq_ret.mp h
        repeat' split at h
        all_goals first
          | exact of_linkNode h
          | cases h; exact of_eq rfl

end CountsKept

/-- The node that `vfs_close` counts down. -/
def countDown (a : Nat) (n : Node) : Node :=
  if a ≠ rootAddr ∧ n.refs > 0 then { n with refs := n.refs - 1 } else n

theorem countDown_nonneg {a : Nat} {n : Node} (h : 0 ≤ n.refs) : 0 ≤ (countDown a n).refs := by
  unfold countDown
  split
  · rename_i hpos
    exact Int.sub_nonneg_of_le hpos.2
  · exact h

/-- `vfs_close`, with the count it leaves. -/
theorem vfsClose_counted {v v' : Vfs} {a : Nat} {ret : Int} (h : vfsClose v a = .ret (v', ret)) :
    ∃ n, v.node a = some n ∧
      (¬(n.synth = true ∧ a ≠ rootAddr ∧ n.refs ≤ 1) ∧ v' = v.setNode a (countDown a n) ∨
        n.synth = true ∧ a ≠ rootAddr ∧
          v' = ((v.setNode a (countDown a n)).freeBuf n.data).freeNode a) := by
  obtain ⟨n, hn, h⟩ := Exec.bind_eq_ret.mp h
  refine ⟨n, Vfs.load_ret hn, ?_⟩
  unfold countDown
  by_cases hcount : a ≠ rootAddr ∧ n.refs > 0
  · rw [if_pos hcount] at h ⊢
    dsimp only at h
    split at h
    · rename_i hfree
      cases h
      exact .inr ⟨hfree.1, hfree.2.1, rfl⟩
    · rename_i hkeep
      cases h
      exact .inl ⟨fun hf => hkeep ⟨hf.1, hf.2.1, Int.sub_nonpos_of_le hf.2.2⟩, rfl⟩
  · rw [if_neg hcount] at h ⊢
    dsimp only at h
    split at h
    · rename_i hfree
      cases h
      exact .inr ⟨hfree.1, hfree.2.1, rfl⟩
    · rename_i hkeep
      cases h
      refine .inl ⟨fun hf => hkeep ⟨hf.1, hf.2.1, ?_⟩, rfl⟩
      exact Int.not_lt.mp fun hpos => hcount ⟨hf.2.1, hpos⟩

/-! ## Every state that is reached -/

/-- What holds of memory and of the counts between two calls. -/
structure Settled (v : Vfs) : Prop where
  table : NodeTable v
  texts : TextsApart v
  fresh : ∀ b, v.nextObj ≤ b → v.buf b = none ∧ v.cell b = none
  counts : ∀ a n, v.node a = some n → 0 ≤ n.refs

namespace Settled

variable {v v' : Vfs}

theorem counts_kept (h : ∀ a n, v.node a = some n → 0 ≤ n.refs) (hk : CountsKept v v') :
    ∀ a n, v'.node a = some n → 0 ≤ n.refs := by
  intro a n' hn'
  rcases hk a n' hn' with ⟨n, hn, he⟩ | hone
  · rw [he]
    exact h a n hn
  · rw [hone]
    decide

/-- One node is counted anew. -/
theorem counts_setNode {a : Nat} {m : Node} (h : ∀ a n, v.node a = some n → 0 ≤ n.refs) (hm : 0 ≤ m.refs) :
    ∀ x n, (v.setNode a m).node x = some n → 0 ≤ n.refs := by
  intro x n hn
  by_cases hx : x = a
  · subst hx
    rw [Vfs.node_setNode_self, Option.some.injEq] at hn
    exact hn ▸ hm
  · rw [Vfs.node_setNode_ne hx] at hn
    exact h x n hn

/-- `vfs_close` takes nothing from `0`. -/
theorem counts_close {a : Nat} {ret : Int} (h : ∀ a n, v.node a = some n → 0 ≤ n.refs)
    (hc : vfsClose v a = .ret (v', ret)) : ∀ x n, v'.node x = some n → 0 ≤ n.refs := by
  obtain ⟨n, hn, ⟨_, rfl⟩ | ⟨_, _, rfl⟩⟩ := vfsClose_counted hc
  · exact counts_setNode h (countDown_nonneg (h a n hn))
  · intro x m hm
    by_cases hx : x = a
    · subst hx
      exact absurd hm (by simp [Vfs.freeNode])
    · refine h x m ?_
      simpa [Vfs.freeNode, Vfs.setNode, hx] using hm

theorem of_boot (hb : VfsBoot v) : Settled v := by
  have ht := NodeTable.of_boot hb
  have htx := TextsApart.of_boot hb
  obtain ⟨mem, fb, rfl⟩ := hb
  refine ⟨ht, htx, fun _ _ => ⟨rfl, rfl⟩, fun a n hn => ?_⟩
  by_cases ha : a = rootAddr
  · subst ha
    obtain rfl : rootNode = n := Option.some.inj hn
    decide
  · exact absurd hn (by simp [emptyVfs, ha])

theorem step {call : VfsCall} (h : Settled v) (hs : vfsCall v call = .ret v') : Settled v' := by
  obtain ⟨ht, htx, hfresh, hcounts⟩ := h
  have hst := Stocked.step ht hs
  refine ⟨ht.step hs, (htx.step ht hs).1, fun b hb => ?_, ?_⟩
  · obtain ⟨hbuf, hcell⟩ := hfresh b (Nat.le_trans hst.supply hb)
    exact ⟨hst.buf b hb hbuf, hst.cell b hb hcell⟩
  · cases call_effect ht.fresh hs with
    | idle hu => exact counts_kept hcounts (.of_eq hu.node)
    | @opened _ _ _ a n hn _ hv =>
        subst hv
        refine counts_setNode hcounts ?_
        exact Int.le_add_one (hcounts a n hn)
    | made hm _ => exact counts_kept hcounts (.of_newNode hm)
    | linked hl _ =>
        obtain ⟨⟨w, r⟩, hw, hs⟩ := Exec.bind_eq_ret.mp hs
        cases hs
        exact counts_kept hcounts (.of_vfsLink hw)
    | wrote hw => exact counts_kept hcounts (.of_sameNames (.of_vfsWrite hw))
    | truncated hw => exact counts_kept hcounts (.of_sameNames (.of_vfsTruncate hw))
    | closed hc => exact counts_close hcounts hc
    | unlinked _ _ hu =>
        obtain ⟨n, hu⟩ := unlinkNode_ret hu
        exact counts_kept hcounts (.drop hu.node)
    | renamed _ hr =>
        obtain ⟨n, _, rfl⟩ := renameNode_ret hr
        refine counts_kept hcounts fun x n' hn' => .inl ?_
        obtain ⟨m, hm, rfl⟩ := Option.map_eq_some_iff.mp hn'
        exact ⟨m, hm, rfl⟩

theorem of_reach (h : vfsSystem.Reach v) : Settled v :=
  System.ReachVia.invariant (I := Settled) (fun _ hb => of_boot hb) (fun _ _ _ hi _ hs => hi.step hs) h

end Settled

end LiteBSD
