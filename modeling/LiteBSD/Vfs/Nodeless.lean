/-
# `LiteBSD.Vfs.Nodeless` — blocks that are none of the file system's

The one heap also holds stacks, task structs and the heaps of programs.  The
file system frees and changes the data of its nodes, and no other block: one
that no node points at is as it was behind every call (`Nodeless.step`), also
where an allocation fails.
-/
import LiteBSD.Files.FsRun

namespace LiteBSD

open Lib

/-- The block at `b` is there, with the contents `m`, and no node points at it. -/
structure Nodeless (v : Vfs) (b : Nat) (m : Buf) : Prop where
  held : v.buf b = some m
  below : b < v.nextObj
  apart : ∀ a n, v.node a = some n → n.data ≠ some b

namespace Nodeless

variable {v v' : Vfs} {a b : Nat} {m : Buf}

theorem of_eq (h : Nodeless v b m) (hbuf : v'.buf = v.buf) (hnode : v'.node = v.node) (hsup : v.nextObj ≤ v'.nextObj) :
    Nodeless v' b m :=
  ⟨hbuf ▸ h.held, Nat.lt_of_lt_of_le h.below hsup, hnode ▸ h.apart⟩

theorem untouched (h : Nodeless v b m) (hu : Untouched v v') : Nodeless v' b m := h.of_eq hu.buf hu.node hu.supply

/-- Another block is stored, or freed. -/
theorem setBuf (h : Nodeless v b m) {d : Nat} (hd : d ≠ b) (x : Option Buf) (hbuf : v'.buf = Function.update v.buf d x)
    (hnode : v'.node = v.node) (hsup : v.nextObj ≤ v'.nextObj) : Nodeless v' b m := by
  refine ⟨?_, Nat.lt_of_lt_of_le h.below hsup, hnode ▸ h.apart⟩
  rw [hbuf, Function.update_of_ne (Ne.symm hd)]
  exact h.held

/-- A node is stored, which does not point here. -/
theorem setNode (h : Nodeless v b m) {n : Node} (hn : n.data ≠ some b) : Nodeless (v.setNode a n) b m := by
  refine ⟨h.held, h.below, fun x n' hx => ?_⟩
  have hx : Function.update v.node a (some n) x = some n' := hx
  by_cases hxa : x = a
  · subst hxa
    rw [Function.update_self, Option.some.injEq] at hx
    exact hx ▸ hn
  · rw [Function.update_of_ne hxa] at hx
    exact h.apart x n' hx

/-- The data of a node is dropped. -/
theorem drop (h : Nodeless v b m) {data : Option Nat} (hd : data ≠ some b) (hbuf : v'.buf = dropBuf v.buf data)
    (hnode : ∀ x n, v'.node x = some n → v.node x = some n) (hsup : v'.nextObj = v.nextObj) : Nodeless v' b m := by
  refine ⟨?_, hsup ▸ h.below, fun x n hx => h.apart x n (hnode x n hx)⟩
  rw [hbuf]
  cases data with
  | none => exact h.held
  | some d =>
      have hdb : b ≠ d := fun he => hd (congrArg some he.symm)
      exact (Function.update_of_ne hdb _ _).trans h.held

theorem freeBuf (h : Nodeless v b m) {data : Option Nat} (hd : data ≠ some b) : Nodeless (v.freeBuf data) b m := by
  refine h.drop hd (Vfs.freeBuf_buf data) (fun x n hx => ?_) (Vfs.freeBuf_nextObj data)
  rwa [Vfs.freeBuf_node] at hx

theorem kmallocBuf (h : Nodeless v b m) {size : Nat} {p : Option Nat} (hk : v.kmallocBuf size = .ret (v', p)) :
    Nodeless v' b m ∧ p ≠ some b := by
  rcases Vfs.kmallocBuf_ret hk with ⟨rfl, hu⟩ | ⟨rfl, rfl⟩
  · exact ⟨h.untouched hu, (Option.some_ne_none b).symm⟩
  · have hne : v.nextObj ≠ b := Nat.ne_of_gt h.below
    exact ⟨h.setBuf hne _ rfl rfl (Nat.le_succ _), fun he => hne (Option.some.inj he)⟩

theorem copyBytes (h : Nodeless v b m) {dst k : Nat} {data : Option Nat} (hd : dst ≠ b)
    (hk : v.copyBytes dst data k = .ret v') : Nodeless v' b m := by
  rcases Vfs.copyBytes_ret hk with ⟨_, rfl⟩ | ⟨_, _, _, _, _, _, rfl⟩
  · exact h
  · exact h.setBuf hd _ rfl rfl (Nat.le_refl _)

theorem storeBytes (h : Nodeless v b m) {data : Option Nat} {offset : Nat} {src : List UInt8} (hd : data ≠ some b)
    (hk : v.storeBytes data offset src = .ret v') : Nodeless v' b m := by
  rcases Vfs.storeBytes_ret hk with ⟨_, rfl⟩ | ⟨d, _, rfl, _, _, rfl⟩
  · exact h
  · exact h.setBuf (fun he => hd (congrArg some he)) _ rfl rfl (Nat.le_refl _)

theorem zeroBytes (h : Nodeless v b m) {first last : Nat} {data : Option Nat} (hd : data ≠ some b)
    (hk : v.zeroBytes data first last = .ret v') : Nodeless v' b m := by
  unfold Vfs.zeroBytes at hk
  split at hk
  · cases hk
    exact h
  · cases data with
    | none => cases hk
    | some d =>
        obtain ⟨_, _, hk⟩ := Exec.bind_eq_ret.mp hk
        split at hk
        · cases hk
          exact h.setBuf (fun he => hd (congrArg some he)) _ rfl rfl (Nat.le_refl _)
        · cases hk

theorem of_cowCopy (h : Nodeless v b m) {n : Node} {copied : Option (Option Nat)} (hk : cowCopy v n = .ret (v', copied)) :
    Nodeless v' b m ∧ copied ≠ some (some b) := by
  unfold cowCopy at hk
  split at hk
  · obtain ⟨⟨w, p⟩, hw, hk⟩ := Exec.bind_eq_ret.mp hk
    obtain ⟨hblock, hp⟩ := h.kmallocBuf hw
    cases p with
    | none =>
        cases hk
        exact ⟨hblock, (Option.some_ne_none _).symm⟩
    | some d =>
        obtain ⟨u, hu, hk⟩ := Exec.bind_eq_ret.mp hk
        cases hk
        exact ⟨hblock.copyBytes (fun he => hp (congrArg some he)) hu, fun he => hp (Option.some.inj he)⟩
  · cases hk
    exact ⟨h, fun he => by cases he⟩

theorem of_dataCow (h : Nodeless v b m) {ret : Int} (hk : dataCow v a = .ret (v', ret)) : Nodeless v' b m := by
  obtain ⟨n, _, hk⟩ := Exec.bind_eq_ret.mp hk
  split at hk
  · cases hk
    exact h
  · rename_i c _
    obtain ⟨refs, _, hk⟩ := Exec.bind_eq_ret.mp hk
    split at hk
    · cases hk
      exact h
    · obtain ⟨⟨w, copied⟩, hw, hk⟩ := Exec.bind_eq_ret.mp hk
      have hcell : Nodeless (v.setCell c (refs - 1)) b m := h.of_eq rfl rfl (Nat.le_refl _)
      obtain ⟨hcow, hcopied⟩ := hcell.of_cowCopy hw
      cases copied with
      | none =>
          cases hk
          exact hcow
      | some data =>
          have hdata : data ≠ some b := fun he => hcopied (congrArg some he)
          obtain ⟨⟨u, p⟩, hu, hk⟩ := Exec.bind_eq_ret.mp hk
          have hcounter := hcow.untouched (.kmalloc hu)
          cases p with
          | none =>
              cases hk
              exact hcounter.freeBuf hdata
          | some c' =>
              cases hk
              have hone : Nodeless (u.setCell c' 1) b m := hcounter.of_eq rfl rfl (Nat.le_refl _)
              exact hone.setNode hdata

theorem of_growData (h : Nodeless v b m) {required : Nat} {ret : Int} (hk : growData v a required = .ret (v', ret)) :
    Nodeless v' b m := by
  obtain ⟨n, hn, hk⟩ := Exec.bind_eq_ret.mp hk
  split at hk
  · split at hk
    · cases hk
    · obtain ⟨⟨w, p⟩, hw, hk⟩ := Exec.bind_eq_ret.mp hk
      obtain ⟨hblock, hp⟩ := h.kmallocBuf hw
      cases p with
      | none =>
          cases hk
          exact hblock
      | some d =>
          obtain ⟨u, hu, hk⟩ := Exec.bind_eq_ret.mp hk
          cases hk
          have hcopy := hblock.copyBytes (fun he => hp (congrArg some he)) hu
          exact (hcopy.freeBuf (h.apart a n (Vfs.load_ret hn))).setNode hp
  · cases hk
    exact h

theorem of_writeData (h : Nodeless v b m) {offset : Nat} {buffer : List UInt8} {ret : Int}
    (hk : writeData v a offset buffer = .ret (v', ret)) : Nodeless v' b m := by
  obtain ⟨⟨v₁, r₁⟩, h₁, hk⟩ := Exec.bind_eq_ret.mp hk
  replace h₁ := h.of_dataCow h₁
  dsimp only at hk
  split at hk
  · cases hk
    exact h₁
  · obtain ⟨⟨v₂, r₂⟩, h₂, hk⟩ := Exec.bind_eq_ret.mp hk
    replace h₂ := h₁.of_dataCow h₂
    dsimp only at hk
    split at hk
    · cases hk
      exact h₂
    · split at hk
      · cases hk
        exact h₂
      · obtain ⟨⟨v₃, r₃⟩, h₃, hk⟩ := Exec.bind_eq_ret.mp hk
        replace h₃ := h₂.of_growData h₃
        dsimp only at hk
        split at hk
        · cases hk
          exact h₃
        · obtain ⟨n, hn, hk⟩ := Exec.bind_eq_ret.mp hk
          obtain ⟨v₄, h₄, hk⟩ := Exec.bind_eq_ret.mp hk
          cases hk
          have hdata := h₃.apart a n (Vfs.load_ret hn)
          replace h₄ := h₃.storeBytes hdata h₄
          split
          · exact h₄.setNode hdata
          · exact h₄

theorem of_vfsWrite (h : Nodeless v b m) {offset : Nat} {buffer : List UInt8} {ret : Int}
    (hk : vfsWrite v a offset buffer = .ret (v', ret)) : Nodeless v' b m := by
  obtain ⟨n, _, hk⟩ := Exec.bind_eq_ret.mp hk
  repeat' split at hk
  all_goals first
    | exact h.of_writeData hk
    | cases hk; exact h.of_eq rfl rfl (Nat.le_refl _)

theorem of_vfsTruncate (h : Nodeless v b m) {length : Nat} {ret : Int} (hk : vfsTruncate v a length = .ret (v', ret)) :
    Nodeless v' b m := by
  obtain ⟨n, _, hk⟩ := Exec.bind_eq_ret.mp hk
  split at hk
  · cases hk
    exact h
  · split at hk
    · cases hk
      exact h
    · obtain ⟨⟨v₁, r₁⟩, h₁, hk⟩ := Exec.bind_eq_ret.mp hk
      replace h₁ := h.of_dataCow h₁
      dsimp only at hk
      split at hk
      · cases hk
        exact h₁
      · obtain ⟨n₁, hn₁, hk⟩ := Exec.bind_eq_ret.mp hk
        split at hk
        · cases hk
          exact h₁.setNode (h₁.apart a n₁ (Vfs.load_ret hn₁))
        · split at hk
          · cases hk
            exact h₁
          · obtain ⟨⟨v₂, r₂⟩, h₂, hk⟩ := Exec.bind_eq_ret.mp hk
            replace h₂ := h₁.of_growData h₂
            dsimp only at hk
            split at hk
            · cases hk
              exact h₂
            · obtain ⟨n₂, hn₂, hk⟩ := Exec.bind_eq_ret.mp hk
              obtain ⟨v₃, h₃, hk⟩ := Exec.bind_eq_ret.mp hk
              cases hk
              have hdata := h₂.apart a n₂ (Vfs.load_ret hn₂)
              exact (h₂.zeroBytes hdata h₃).setNode hdata

/-- A new node has new data, or none. -/
theorem of_newNode (h : Nodeless v b m) {n : Node} (hm : NewNode v v' a n) : Nodeless v' b m := by
  have hlt : b < v'.nextObj := Nat.lt_of_lt_of_le h.below (Nat.le_of_lt (Nat.lt_of_le_of_lt hm.fresh.1 hm.fresh.2))
  obtain ⟨hbuf, hdata⟩ : v'.buf b = v.buf b ∧ n.data ≠ some b := by
    rcases hm.data with ⟨hnone, _, hbuf⟩ | ⟨d, _, hd, hge, _, _, hbuf⟩
    · exact ⟨congrFun hbuf b, hnone ▸ (Option.some_ne_none b).symm⟩
    · have hne : b ≠ d := Nat.ne_of_lt (Nat.lt_of_lt_of_le h.below hge)
      exact ⟨(congrFun hbuf b).trans (Function.update_of_ne hne _ _), hd ▸ fun he => hne (Option.some.inj he).symm⟩
  refine ⟨hbuf.trans h.held, hlt, fun x n' hx => ?_⟩
  rw [hm.node] at hx
  by_cases hxa : x = a
  · subst hxa
    rw [Function.update_self, Option.some.injEq] at hx
    exact hx ▸ hdata
  · rw [Function.update_of_ne hxa] at hx
    exact h.apart x n' hx

/-- A link has the data of its target. -/
theorem of_newLink (h : Nodeless v b m) {target c : Nat} {n t : Node} (hl : NewLink v v' a target c n t) :
    Nodeless v' b m := by
  have hlt : b < v'.nextObj := Nat.lt_of_lt_of_le h.below (Nat.le_of_lt (Nat.lt_of_le_of_lt hl.fresh.1 hl.fresh.2))
  have htarget : t.data ≠ some b := h.apart target t hl.live
  have hdata : n.data = t.data := by rw [hl.shares]
  refine ⟨(congrFun hl.buf b).trans h.held, hlt, fun x n' hx => ?_⟩
  rw [hl.node] at hx
  by_cases hxa : x = a
  · subst hxa
    rw [Function.update_self, Option.some.injEq] at hx
    exact hx ▸ hdata ▸ htarget
  · rw [Function.update_of_ne hxa] at hx
    by_cases hxt : x = target
    · subst hxt
      rw [Function.update_self, Option.some.injEq] at hx
      exact hx ▸ htarget
    · rw [Function.update_of_ne hxt] at hx
      exact h.apart x n' hx

/-- A node goes. -/
theorem gone {f : Nat → Option Node} {x : Nat} {n : Node} (h : Function.update f a none x = some n) : f x = some n := by
  by_cases hxa : x = a
  · rw [hxa, Function.update_self] at h
    cases h
  · rwa [Function.update_of_ne hxa] at h

theorem of_vfsClose (h : Nodeless v b m) {ret : Int} (hk : vfsClose v a = .ret (v', ret)) : Nodeless v' b m := by
  obtain ⟨n, hn, ⟨k, rfl⟩ | ⟨_, _, _, _, hnode, hbuf, _, _, hobj⟩⟩ := vfsClose_ret hk
  · exact h.setNode (h.apart a n hn)
  · exact h.drop (h.apart a n hn) hbuf (fun x n' hx => gone (hnode ▸ hx)) hobj

theorem of_unlinkNode (h : Nodeless v b m) (hk : unlinkNode v a = .ret v') : Nodeless v' b m := by
  obtain ⟨n, hu⟩ := unlinkNode_ret hk
  have hdata := h.apart a n hu.live
  have hgone : ∀ x n', v'.node x = some n' → v.node x = some n' := fun x n' hx => gone (hu.node ▸ hx)
  rcases hu.data with ⟨_, _, hbuf⟩ | ⟨_, _, _, _, _, hbuf⟩
  · exact h.drop hdata hbuf hgone hu.supply
  · split at hbuf
    · exact h.drop hdata hbuf hgone hu.supply
    · exact h.drop (Option.some_ne_none b).symm hbuf hgone hu.supply

/-- Every call leaves the block alone. -/
theorem step (h : Nodeless v b m) {call : VfsCall} (ht : NodeTable v) (hs : vfsCall v call = .ret v') : Nodeless v' b m := by
  cases call_effect ht.fresh hs with
  | idle hu => exact h.untouched hu
  | opened hn _ hv =>
      subst hv
      have hdata := h.apart _ _ hn
      exact h.setNode hdata
  | made hm _ => exact h.of_newNode hm
  | linked hl _ => exact h.of_newLink hl
  | wrote hw => exact h.of_vfsWrite hw
  | truncated hw => exact h.of_vfsTruncate hw
  | closed hc => exact h.of_vfsClose hc
  | unlinked _ _ hu => exact h.of_unlinkNode hu
  | renamed _ hr =>
      obtain ⟨hbuf, hsup, hdata⟩ : v'.buf = v.buf ∧ v'.nextObj = v.nextObj ∧
          ∀ x n', v'.node x = some n' → ∃ n, v.node x = some n ∧ n'.data = n.data := by
        obtain ⟨n, _, rfl⟩ := renameNode_ret hr
        refine ⟨rfl, rfl, fun x n' hx => ?_⟩
        obtain ⟨y, hy, rfl⟩ := Option.map_eq_some_iff.mp hx
        exact ⟨y, hy, rfl⟩
      refine ⟨(congrFun hbuf b).trans h.held, hsup ▸ h.below, fun x n' hx => ?_⟩
      obtain ⟨n, hn, he⟩ := hdata x n' hx
      exact he ▸ h.apart x n hn

/-- Nor does a row of calls of the kernel touch it. -/
theorem vfsRun (h : Nodeless v b m) (hv : Settled v) (hr : Files.VfsRun v v') : Nodeless v' b m ∧ NodeTable v' := by
  induction hr with
  | refl => exact ⟨h, hv.table⟩
  | call _ call hs ih => exact ⟨ih.1.step ih.2 hs, ih.2.step hs⟩
  | draw _ hu ih => exact ⟨ih.1.untouched hu, ih.2.of_untouched hu⟩

end Nodeless

end LiteBSD
