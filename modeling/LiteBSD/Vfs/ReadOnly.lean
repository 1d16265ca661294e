/-
# `LiteBSD.Vfs.ReadOnly` — who may change `/proc` and `/sys`

Every call that makes a node asks whether its path is a synthetic entry, and
refuses if it is one.  The question is put to the entries there are: `/proc/7`
is one while task 7 is, and `/proc/notes` never is.  So a node is kept out of
the two trees by the callers, not by the file system (`KeepsOut`): no call may
place a node strictly below `/proc` or `/sys` at a path that is not an entry
at that moment.  A rename needs no more than that, although it moves whole
directories: what it moves below `/proc` it moves there with the directory.

The texts of the synthetic files are safe without any condition.  An open
makes a node of its own for the text, with a buffer that no other node has,
and `vfs_write` and `vfs_truncate` refuse such a node.
-/
import LiteBSD.Vfs.Names
import LiteBSD.Vfs.Blobs

namespace LiteBSD

open Lib

/-- Strictly below `/proc` or `/sys`. -/
def inSynthTree (path : CStr) : Bool := isBelow (str "/proc") path || isBelow (str "/sys") path

/-- No listed node is strictly below `/proc` or `/sys`. -/
def TreesEmpty (v : Vfs) : Prop :=
  ∀ a ∈ v.nodes, ∀ n, v.node a = some n → ¬inSynthTree n.path

/-- Can a link to the target be made: is it a node, and no directory? -/
def linkable (v : Vfs) (c : Caller) (targetPath : CStr) : Bool :=
  synthLookup c.pids (c.resolve targetPath) = none ∧
    (findNode v (c.resolve targetPath)).any fun a => (v.node a).any fun n => !n.dirBit

/-- The path at which a call is to place a node, unless something other than
the path stands against it. -/
def VfsCall.places (v : Vfs) : VfsCall → Option (Caller × CStr)
  | .openPath c path flags => if oCreat flags then some (c, path) else none
  | .mkdir c path => some (c, path)
  | .link c path targetPath => if linkable v c targetPath then some (c, path) else none
  | .symlink c target linkpath => if target = [] then none else some (c, linkpath)
  | .rename c oldpath newpath =>
      if renameTarget v c oldpath newpath = none then none else some (c, newpath)
  | _ => none

/-- A node that is placed strictly below `/proc` or `/sys` finds an entry at
its path. -/
def KeepsOut (v : Vfs) (call : VfsCall) : Prop :=
  ∀ c path, call.places v = some (c, path) → inSynthTree (c.resolve path) →
    (synthLookup c.pids (c.resolve path)).isSome

/-! ## Moving a directory -/

section Paths

/-- A path that only starts with a slash, such as `/proc`. -/
structure TopName (dir : CStr) : Prop where
  ne : dir ≠ []
  slash : ∀ i, dir[i]? = some slash → i = 0

theorem topName_proc : TopName (str "/proc") := by
  refine ⟨by decide, fun i hi => ?_⟩
  have hlt : i < 5 := (List.getElem?_eq_some_iff.mp hi).1
  revert hi
  revert i
  decide

theorem topName_sys : TopName (str "/sys") := by
  refine ⟨by decide, fun i hi => ?_⟩
  have hlt : i < 4 := (List.getElem?_eq_some_iff.mp hi).1
  revert hi
  revert i
  decide

/-- What a directory takes along comes below `dir` only with the directory. -/
theorem not_below_rebase {dir old new p : CStr} (hdir : TopName dir) (hne : new ≠ [])
    (hlen : new.length ≤ 255) (hnew : isBelow dir new = false) (hself : new ≠ dir)
    (hp : isBelow old p) : isBelow dir (rebase old new p) = false := by
  rw [Bool.eq_false_iff]
  intro hbelow
  rw [rebase_eq hlen] at hbelow
  obtain ⟨htake, hslash⟩ := isBelow_iff.mp hbelow
  have hroom : dir.length < 255 := by
    have hlt := (List.getElem?_eq_some_iff.mp hslash).1
    rw [List.length_take] at hlt
    omega
  have hsub : (new ++ p.drop old.length).take dir.length = dir := by
    rw [List.take_take, Nat.min_eq_left (Nat.le_of_lt hroom)] at htake
    exact htake
  have hat : (new ++ p.drop old.length)[dir.length]? = some slash := by
    rw [List.getElem?_take_of_lt hroom] at hslash
    exact hslash
  rcases Nat.lt_trichotomy new.length dir.length with hlt | heq | hgt
  · -- the slash behind the directory would stand inside `dir`
    have hmid : dir[new.length]? = some slash := by
      rw [← hsub, List.getElem?_take_of_lt hlt, List.getElem?_append_right (Nat.le_refl _),
        Nat.sub_self, List.getElem?_drop, Nat.add_zero]
      exact (isBelow_iff.mp hp).2
    exact hne (List.length_eq_zero_iff.mp (hdir.slash _ hmid))
  · rw [← heq, List.take_left'] at hsub
    · exact hself hsub
    · rfl
  · have hbelow : isBelow dir new = true := by
      refine isBelow_iff.mpr ⟨?_, ?_⟩
      · rwa [List.take_append_of_le_length (Nat.le_of_lt hgt)] at hsub
      · rwa [List.getElem?_append_left hgt] at hat
    rw [hnew] at hbelow
    cases hbelow

end Paths

/-! ## Work on the data of one node -/

/-- The buffer a node points at. -/
def Vfs.dataAt (v : Vfs) (a : Nat) : Option Nat := (v.node a).bind fun n => n.data

/-- At most buffers from the supply have changed. -/
structure FreshOnly (v v' : Vfs) : Prop where
  node : v'.node = v.node
  buf : ∀ d, d < v.nextObj → v'.buf d = v.buf d
  supply : v.nextObj ≤ v'.nextObj

/-- At most the node at `a`, its buffer, and buffers from the supply have
changed. -/
structure OnlyAt (a : Nat) (v v' : Vfs) : Prop where
  node : ∀ x, x ≠ a → v'.node x = v.node x
  buf : ∀ d, d < v.nextObj → v.dataAt a ≠ some d → v'.buf d = v.buf d
  data : ∀ d, v'.dataAt a = some d → v.dataAt a = some d ∨ v.nextObj ≤ d ∧ d < v'.nextObj
  supply : v.nextObj ≤ v'.nextObj

section Work

variable {v v' v'' : Vfs} {a : Nat} {n n' : Node}

theorem dataAt_eq (hn : v.node a = some n) : v.dataAt a = n.data := by
  rw [Vfs.dataAt, hn, Option.bind_some]

theorem Vfs.node_setNode_self (v : Vfs) (a : Nat) (n : Node) : (v.setNode a n).node a = some n :=
  Function.update_self _ _ _

theorem Vfs.node_setNode_ne {x : Nat} (hx : x ≠ a) : (v.setNode a n).node x = v.node x :=
  Function.update_of_ne hx _ _

theorem dataAt_setNode (v : Vfs) (a : Nat) (n : Node) : (v.setNode a n).dataAt a = n.data := by
  rw [Vfs.dataAt, Vfs.node_setNode_self, Option.bind_some]

theorem FreshOnly.refl (v : Vfs) : FreshOnly v v := ⟨rfl, fun _ _ => rfl, Nat.le_refl _⟩

theorem FreshOnly.trans (h : FreshOnly v v') (h' : FreshOnly v' v'') : FreshOnly v v'' :=
  ⟨h'.node.trans h.node,
    fun d hd => (h'.buf d (Nat.lt_of_lt_of_le hd h.supply)).trans (h.buf d hd),
    Nat.le_trans h.supply h'.supply⟩

theorem FreshOnly.kmalloc {size : Nat} {p : Option Nat} (h : v.kmalloc size = .ret (v', p)) :
    FreshOnly v v' := by
  have hu := Untouched.kmalloc h
  exact ⟨hu.node, fun d _ => congrFun hu.buf d, hu.supply⟩

theorem FreshOnly.kmallocBuf {size : Nat} {p : Option Nat}
    (h : v.kmallocBuf size = .ret (v', p)) :
    FreshOnly v v' ∧ ∀ b, p = some b → v.nextObj ≤ b ∧ b < v'.nextObj := by
  rcases Vfs.kmallocBuf_ret h with ⟨rfl, hu⟩ | ⟨rfl, rfl⟩
  · exact ⟨⟨hu.node, fun d _ => congrFun hu.buf d, hu.supply⟩, fun b hb => by cases hb⟩
  · refine ⟨⟨rfl, fun d hd => ?_, Nat.le_succ _⟩, fun b hb => ?_⟩
    · exact Function.update_of_ne (Nat.ne_of_lt hd) _ _
    · cases hb
      exact ⟨Nat.le_refl _, Nat.lt_succ_self _⟩

/-- A copy into a buffer from the supply. -/
theorem FreshOnly.copyBytes {dst k : Nat} {data : Option Nat} (hvw : FreshOnly v v')
    (hdst : v.nextObj ≤ dst) (h : v'.copyBytes dst data k = .ret v'') : FreshOnly v v'' := by
  rcases Vfs.copyBytes_ret h with ⟨_, rfl⟩ | ⟨_, _, m, _, _, _, rfl⟩
  · exact hvw
  · refine ⟨hvw.node, fun d hd => ?_, hvw.supply⟩
    exact (Function.update_of_ne (Nat.ne_of_lt (Nat.lt_of_lt_of_le hd hdst)) _ _).trans (hvw.buf d hd)

theorem OnlyAt.refl (a : Nat) (v : Vfs) : OnlyAt a v v :=
  ⟨fun _ _ => rfl, fun _ _ _ => rfl, fun _ hd => .inl hd, Nat.le_refl _⟩

theorem OnlyAt.trans (h : OnlyAt a v v') (h' : OnlyAt a v' v'') : OnlyAt a v v'' := by
  refine ⟨fun x hx => (h'.node x hx).trans (h.node x hx), fun d hd hne => ?_, fun d hd => ?_,
    Nat.le_trans h.supply h'.supply⟩
  · have hne' : v'.dataAt a ≠ some d := by
      intro hd'
      rcases h.data d hd' with hold | hnew
      · exact hne hold
      · exact absurd hd (Nat.not_lt.mpr hnew.1)
    exact (h'.buf d (Nat.lt_of_lt_of_le hd h.supply) hne').trans (h.buf d hd hne)
  · rcases h'.data d hd with hmid | hnew
    · rcases h.data d hmid with hold | hnew
      · exact .inl hold
      · exact .inr ⟨hnew.1, Nat.lt_of_lt_of_le hnew.2 h'.supply⟩
    · exact .inr ⟨Nat.le_trans h.supply hnew.1, hnew.2⟩

theorem OnlyAt.of_fresh (h : FreshOnly v v') : OnlyAt a v v' := by
  refine ⟨fun x _ => congrFun h.node x, fun d hd _ => h.buf d hd, fun d hd => .inl ?_, h.supply⟩
  rwa [Vfs.dataAt, h.node] at hd

/-- A store into the node that keeps its buffer or takes one from the
supply, once the rest is done. -/
theorem OnlyAt.setNode (h : FreshOnly v v')
    (hd : ∀ d, n'.data = some d → v.dataAt a = some d ∨ v.nextObj ≤ d ∧ d < v'.nextObj) :
    OnlyAt a v (v'.setNode a n') := by
  refine ⟨fun x hx => ?_, fun d hlt _ => h.buf d hlt, fun d hdata => ?_, h.supply⟩
  · exact (Vfs.node_setNode_ne hx).trans (congrFun h.node x)
  · rw [dataAt_setNode] at hdata
    exact hd d hdata

/-- Freeing the buffer of the node. -/
theorem OnlyAt.freeBuf (hn : v.node a = some n) : OnlyAt a v (v.freeBuf n.data) := by
  cases hd : n.data with
  | none => exact .refl a v
  | some b =>
      refine ⟨fun _ _ => rfl, fun d _ hne => ?_, fun d h => .inl h, Nat.le_refl _⟩
      refine Function.update_of_ne ?_ _ _
      rintro rfl
      exact hne ((dataAt_eq hn).trans hd)

theorem OnlyAt.storeBytes {offset : Nat} {src : List UInt8} (hn : v.node a = some n)
    (h : v.storeBytes n.data offset src = .ret v') : OnlyAt a v v' ∧ v'.node = v.node := by
  rcases Vfs.storeBytes_ret h with ⟨_, rfl⟩ | ⟨b, m, hb, _, _, rfl⟩
  · exact ⟨.refl a v', rfl⟩
  · refine ⟨⟨fun _ _ => rfl, fun d _ hne => ?_, fun d h => .inl h, Nat.le_refl _⟩, rfl⟩
    refine Function.update_of_ne ?_ _ _
    rintro rfl
    exact hne ((dataAt_eq hn).trans hb)

theorem OnlyAt.zeroBytes {first last : Nat} (hn : v.node a = some n)
    (h : v.zeroBytes n.data first last = .ret v') : OnlyAt a v v' ∧ v'.node = v.node := by
  unfold Vfs.zeroBytes at h
  split at h
  · cases h
    exact ⟨.refl a v, rfl⟩
  · cases hb : n.data with
    | none =>
        rw [hb] at h
        cases h
    | some b =>
        rw [hb] at h
        obtain ⟨m, _, h⟩ := Exec.bind_eq_ret.mp h
        split at h
        · cases h
          refine ⟨⟨fun _ _ => rfl, fun d _ hne => ?_, fun d h => .inl h, Nat.le_refl _⟩, rfl⟩
          refine Function.update_of_ne ?_ _ _
          rintro rfl
          exact hne ((dataAt_eq hn).trans hb)
        · cases h

theorem FreshOnly.of_cowCopy {copied : Option (Option Nat)}
    (h : cowCopy v n = .ret (v', copied)) :
    FreshOnly v v' ∧ ∀ b, copied = some (some b) → v.nextObj ≤ b ∧ b < v'.nextObj := by
  unfold cowCopy at h
  split at h
  · obtain ⟨⟨w, p⟩, hw, h⟩ := Exec.bind_eq_ret.mp h
    obtain ⟨hfresh, hnew⟩ := FreshOnly.kmallocBuf hw
    cases p with
    | none =>
        cases h
        exact ⟨hfresh, fun b hb => by cases hb⟩
    | some b =>
        obtain ⟨u, hu, h⟩ := Exec.bind_eq_ret.mp h
        have hsup := (SameNames.copyBytes hu).supply
        cases h
        refine ⟨hfresh.copyBytes (hnew b rfl).1 hu, fun b' hb' => ?_⟩
        cases hb'
        exact ⟨(hnew b rfl).1, Nat.lt_of_lt_of_le (hnew b rfl).2 hsup⟩
  · cases h
    exact ⟨.refl v, fun b hb => by cases hb⟩

theorem OnlyAt.of_dataCow {ret : Int} (h : dataCow v a = .ret (v', ret)) : OnlyAt a v v' := by
  obtain ⟨n, _, h⟩ := Exec.bind_eq_ret.mp h
  split at h
  · cases h
    exact .refl a v
  · rename_i c _
    obtain ⟨refs, _, h⟩ := Exec.bind_eq_ret.mp h
    split at h
    · cases h
      exact .refl a v
    · obtain ⟨⟨w, copied⟩, hw, h⟩ := Exec.bind_eq_ret.mp h
      have hcell : FreshOnly v (v.setCell c (refs - 1)) := ⟨rfl, fun _ _ => rfl, Nat.le_refl _⟩
      obtain ⟨hcopy, hnew⟩ := FreshOnly.of_cowCopy hw
      have hvw := hcell.trans hcopy
      cases copied with
      | none =>
          cases h
          exact .of_fresh hvw
      | some data =>
          obtain ⟨⟨u, p⟩, hu, h⟩ := Exec.bind_eq_ret.mp h
          have hvu := hvw.trans (FreshOnly.kmalloc hu)
          have hwu := (FreshOnly.kmalloc hu).supply
          cases p with
          | none =>
              cases h
              -- the copy is given back
              refine .of_fresh ?_
              cases data with
              | none => exact hvu
              | some b =>
                  refine ⟨hvu.node, fun d hd => ?_, hvu.supply⟩
                  have hne : d ≠ b := Nat.ne_of_lt (Nat.lt_of_lt_of_le hd (hnew b rfl).1)
                  exact (Function.update_of_ne hne _ _).trans (hvu.buf d hd)
          | some c' =>
              cases h
              refine .setNode (hvu.trans ⟨rfl, fun _ _ => rfl, Nat.le_refl _⟩) fun d hd => .inr ?_
              obtain ⟨hlo, hhi⟩ := hnew d (congrArg some hd)
              exact ⟨hlo, Nat.lt_of_lt_of_le hhi hwu⟩

theorem OnlyAt.of_growData {required : Nat} {ret : Int}
    (h : growData v a required = .ret (v', ret)) : OnlyAt a v v' := by
  obtain ⟨n, hn, h⟩ := Exec.bind_eq_ret.mp h
  replace hn := Vfs.load_ret hn
  split at h
  · split at h
    · cases h
    · obtain ⟨⟨w, p⟩, hw, h⟩ := Exec.bind_eq_ret.mp h
      obtain ⟨hfresh, hnew⟩ := FreshOnly.kmallocBuf hw
      cases p with
      | none =>
          cases h
          exact .of_fresh hfresh
      | some b =>
          obtain ⟨u, hu, h⟩ := Exec.bind_eq_ret.mp h
          have hsup := (SameNames.copyBytes hu).supply
          have hvu := hfresh.copyBytes (hnew b rfl).1 hu
          have hnu : u.node a = some n := (congrFun hvu.node a).trans hn
          cases h
          have hfree := (OnlyAt.of_fresh (a := a) hvu).trans (OnlyAt.freeBuf hnu)
          refine ⟨fun x hx => ?_, hfree.buf, fun d hd => .inr ?_, hfree.supply⟩
          · exact (Vfs.node_setNode_ne hx).trans (hfree.node x hx)
          · rw [dataAt_setNode] at hd
            cases hd
            refine ⟨(hnew b rfl).1, Nat.lt_of_lt_of_le (hnew b rfl).2 ?_⟩
            exact Nat.le_trans hsup (OnlyAt.freeBuf hnu).supply
  · cases h
    exact .refl a v

/-- A store that keeps the buffer of the node. -/
theorem OnlyAt.keepData (hn : v.node a = some n) (hd : n'.data = n.data) :
    OnlyAt a v (v.setNode a n') := by
  refine .setNode (.refl v) fun d hd' => .inl ?_
  rw [dataAt_eq hn, ← hd, hd']

theorem OnlyAt.of_writeData {offset : Nat} {buffer : List UInt8} {ret : Int}
    (h : writeData v a offset buffer = .ret (v', ret)) : OnlyAt a v v' := by
  obtain ⟨⟨v₁, r₁⟩, h₁, h⟩ := Exec.bind_eq_ret.mp h
  refine (OnlyAt.of_dataCow h₁).trans ?_
  dsimp only at h
  split at h
  · cases h
    exact .refl a _
  · obtain ⟨⟨v₂, r₂⟩, h₂, h⟩ := Exec.bind_eq_ret.mp h
    refine (OnlyAt.of_dataCow h₂).trans ?_
    dsimp only at h
    split at h
    · cases h
      exact .refl a _
    · split at h
      · cases h
        exact .refl a _
      · obtain ⟨⟨v₃, r₃⟩, h₃, h⟩ := Exec.bind_eq_ret.mp h
        refine (OnlyAt.of_growData h₃).trans ?_
        dsimp only at h
        split at h
        · cases h
          exact .refl a _
        · obtain ⟨n, hn, h⟩ := Exec.bind_eq_ret.mp h
          obtain ⟨v₄, h₄, h⟩ := Exec.bind_eq_ret.mp h
          obtain ⟨hs, hnode⟩ := OnlyAt.storeBytes (Vfs.load_ret hn) h₄
          have hn₄ : v₄.node a = some n := (congrFun hnode a).trans (Vfs.load_ret hn)
          cases h
          split
          · exact hs.trans (.keepData hn₄ rfl)
          · exact hs

theorem OnlyAt.of_vfsTruncate {length : Nat} {ret : Int}
    (h : vfsTruncate v a length = .ret (v', ret)) : OnlyAt a v v' := by
  obtain ⟨n, _, h⟩ := Exec.bind_eq_ret.mp h
  split at h
  · cases h
    exact .refl a v
  · split at h
    · cases h
      exact .refl a v
    · obtain ⟨⟨v₁, r₁⟩, h₁, h⟩ := Exec.bind_eq_ret.mp h
      refine (OnlyAt.of_dataCow h₁).trans ?_
      dsimp only at h
      split at h
      · cases h
        exact .refl a _
      · obtain ⟨n₁, hn₁, h⟩ := Exec.bind_eq_ret.mp h
        split at h
        · cases h
          exact .keepData (Vfs.load_ret hn₁) rfl
        · split at h
          · cases h
            exact .refl a _
          · obtain ⟨⟨v₂, r₂⟩, h₂, h⟩ := Exec.bind_eq_ret.mp h
            refine (OnlyAt.of_growData h₂).trans ?_
            dsimp only at h
            split at h
            · cases h
              exact .refl a _
            · obtain ⟨n₂, hn₂, h⟩ := Exec.bind_eq_ret.mp h
              obtain ⟨v₃, h₃, h⟩ := Exec.bind_eq_ret.mp h
              replace hn₂ := Vfs.load_ret hn₂
              obtain ⟨hz, hnode⟩ := OnlyAt.zeroBytes hn₂ h₃
              cases h
              exact hz.trans (.keepData ((congrFun hnode a).trans hn₂) rfl)

theorem OnlyAt.of_vfsWrite {offset : Nat} {buffer : List UInt8} {ret : Int}
    (h : vfsWrite v a offset buffer = .ret (v', ret)) : OnlyAt a v v' := by
  obtain ⟨n, _, h⟩ := Exec.bind_eq_ret.mp h
  repeat' split at h
  all_goals first
    | exact .of_writeData h
    | cases h; exact ⟨fun _ _ => rfl, fun _ _ _ => rfl, fun _ hd => .inl hd, Nat.le_refl _⟩

/-- A synthetic node is not written. -/
theorem vfsWrite_synth {offset : Nat} {buffer : List UInt8} {ret : Int} (hn : v.node a = some n)
    (hsynth : n.synth = true) (h : vfsWrite v a offset buffer = .ret (v', ret)) : v' = v := by
  obtain ⟨m, hm, h⟩ := Exec.bind_eq_ret.mp h
  obtain rfl : n = m := Option.some.inj (hn.symm.trans (Vfs.load_ret hm))
  rw [if_pos hsynth] at h
  split at h
  · cases h
    rfl
  · split at h <;> cases h <;> rfl

/-- A synthetic node is not truncated. -/
theorem vfsTruncate_synth {length : Nat} {ret : Int} (hn : v.node a = some n)
    (hsynth : n.synth = true) (h : vfsTruncate v a length = .ret (v', ret)) : v' = v := by
  obtain ⟨m, hm, h⟩ := Exec.bind_eq_ret.mp h
  obtain rfl : n = m := Option.some.inj (hn.symm.trans (Vfs.load_ret hm))
  rw [if_pos hsynth] at h
  split at h <;> cases h <;> rfl

end Work

/-! ## The texts -/

/-- The buffer of a synthetic node is its own. -/
structure TextsApart (v : Vfs) : Prop where
  below : ∀ a n d, v.node a = some n → n.data = some d → d < v.nextObj
  apart : ∀ a b n m d, v.node a = some n → n.synth = true → n.data = some d →
    v.node b = some m → m.data = some d → b = a
  root : ∀ n, v.node rootAddr = some n → n.synth = false

/-- The synthetic nodes other than those of `closing` are as they were, and
so are their texts. -/
def TextsKept (v v' : Vfs) (closing : Nat → Prop) : Prop :=
  ∀ a n, v.node a = some n → n.synth = true → ¬closing a →
    v'.node a = some n ∧ v'.bytes n = v.bytes n

section Texts

variable {v v' : Vfs} {a : Nat} {n : Node}

theorem bytes_of_buf (h : ∀ d, n.data = some d → v'.buf d = v.buf d) : v'.bytes n = v.bytes n := by
  unfold Vfs.bytes Vfs.byte
  cases hd : n.data with
  | none => rfl
  | some d => rw [Option.bind_some, Option.bind_some, h d hd]

/-- No node is new, and only real ones take buffers, from the supply. -/
theorem TextsApart.of_nodes (h : TextsApart v) (hsup : v.nextObj ≤ v'.nextObj)
    (hnode : ∀ x n', v'.node x = some n' → ∃ n, v.node x = some n ∧ n'.synth = n.synth ∧
      ∀ d, n'.data = some d →
        n.data = some d ∨ n'.synth = false ∧ v.nextObj ≤ d ∧ d < v'.nextObj) :
    TextsApart v' := by
  refine ⟨fun a n' d hn' hd => ?_, fun a b n' m' d hn' hs hd hm' hd' => ?_, fun n' hn' => ?_⟩
  · obtain ⟨n, hn, _, hdata⟩ := hnode a n' hn'
    rcases hdata d hd with hold | ⟨_, _, hlt⟩
    · exact Nat.lt_of_lt_of_le (h.below a n d hn hold) hsup
    · exact hlt
  · obtain ⟨n, hn, hsn, hdata⟩ := hnode a n' hn'
    obtain ⟨m, hm, _, hdata'⟩ := hnode b m' hm'
    rcases hdata d hd with hold | ⟨hreal, _⟩
    · rcases hdata' d hd' with hold' | ⟨_, hge, _⟩
      · exact h.apart a b n m d hn (hsn.symm.trans hs) hold hm hold'
      · exact absurd (h.below a n d hn hold) (Nat.not_lt.mpr hge)
    · rw [hs] at hreal
      cases hreal
  · obtain ⟨n, hn, hsn, _⟩ := hnode _ n' hn'
    exact hsn.trans (h.root n hn)

/-- One node is new: its buffer is from the supply, or it is a real node and
has the buffer of another one. -/
theorem TextsApart.cons (h : TextsApart v) (hsup : v.nextObj ≤ v'.nextObj)
    (ha : v'.node a = some n) (hroot : a ≠ rootAddr)
    (hdata : ∀ d, n.data = some d → v.nextObj ≤ d ∧ d < v'.nextObj ∨
      n.synth = false ∧ ∃ b m, v.node b = some m ∧ m.synth = false ∧ m.data = some d)
    (hother : ∀ x n', x ≠ a → v'.node x = some n' →
      ∃ m, v.node x = some m ∧ n'.synth = m.synth ∧ n'.data = m.data) :
    TextsApart v' := by
  have hnew : ∀ {n'}, v'.node a = some n' → n' = n := fun hn' => Option.some.inj (hn'.symm.trans ha)
  refine ⟨fun x n' d hn' hd => ?_, fun x y n' m' d hn' hs hd hm' hd' => ?_, fun n' hn' => ?_⟩
  · by_cases hxa : x = a
    · subst hxa
      rcases hdata d (hnew hn' ▸ hd) with hfresh | ⟨_, b, m, hm, _, hmd⟩
      · exact hfresh.2
      · exact Nat.lt_of_lt_of_le (h.below b m d hm hmd) hsup
    · obtain ⟨m, hm, _, hmd⟩ := hother x n' hxa hn'
      exact Nat.lt_of_lt_of_le (h.below x m d hm (hmd ▸ hd)) hsup
  · by_cases hxa : x = a
    · subst hxa
      by_contra hyx
      obtain ⟨m, hm, _, hmd⟩ := hother y m' hyx hm'
      have hlt := h.below y m d hm (hmd ▸ hd')
      rcases hdata d (hnew hn' ▸ hd) with hfresh | ⟨hreal, _⟩
      · exact absurd hlt (Nat.not_lt.mpr hfresh.1)
      · rw [← hnew hn', hs] at hreal
        cases hreal
    · obtain ⟨k, hk, hks, hkd⟩ := hother x n' hxa hn'
      rw [hks] at hs
      rw [hkd] at hd
      by_cases hya : y = a
      · subst hya
        rcases hdata d (hnew hm' ▸ hd') with hfresh | ⟨_, b, m, hm, hreal, hmd⟩
        · exact absurd (h.below x k d hk hd) (Nat.not_lt.mpr hfresh.1)
        · -- the other holder would be the synthetic node
          obtain rfl := h.apart x b k m d hk hs hd hm hmd
          obtain rfl : k = m := Option.some.inj (hk.symm.trans hm)
          rw [hs] at hreal
          cases hreal
      · obtain ⟨m, hm, _, hmd⟩ := hother y m' hya hm'
        exact h.apart x y k m d hk hs hd hm (hmd ▸ hd')
  · obtain ⟨m, hm, hms, _⟩ := hother rootAddr n' (Ne.symm hroot) hn'
    exact hms.trans (h.root m hm)

/-- Work on the data of a real node. -/
theorem TextsApart.work (h : TextsApart v) (hn : v.node a = some n) (hreal : n.synth = false)
    (hnames : SameNames v v') (hw : OnlyAt a v v') :
    TextsApart v' ∧ TextsKept v v' fun _ => False := by
  refine ⟨h.of_nodes hw.supply fun x n' hn' => ?_, fun x m hm hs _ => ?_⟩
  · by_cases hx : x = a
    · subst hx
      have hsy : n'.synth = n.synth := by
        have hl := congrFun hnames.label x
        rw [Vfs.label, Vfs.label, hn', hn, Option.map_some, Option.map_some, Option.some.injEq] at hl
        exact congrArg Label.synth hl
      refine ⟨n, hn, hsy, fun d hd => ?_⟩
      rcases hw.data d ((dataAt_eq hn').trans hd) with hold | hnew
      · exact .inl ((dataAt_eq hn).symm.trans hold)
      · exact .inr ⟨hsy.trans hreal, hnew⟩
    · exact ⟨n', (hw.node x hx) ▸ hn', rfl, fun d hd => .inl hd⟩
  · have hx : x ≠ a := by
      rintro rfl
      obtain rfl : n = m := Option.some.inj (hn.symm.trans hm)
      rw [hreal] at hs
      cases hs
    refine ⟨(hw.node x hx).trans hm, bytes_of_buf fun d hd => ?_⟩
    refine hw.buf d (h.below x m d hm hd) fun hda => hx ?_
    rw [dataAt_eq hn] at hda
    exact (h.apart x a m n d hm hs hd hn hda).symm

/-- The node a call found on the list, or the root, is real. -/
theorem TextsApart.real (h : TextsApart v) (ht : NodeTable v) (hn : v.node a = some n)
    (hlisted : a = rootAddr ∨ a ∈ v.nodes) : n.synth = false := by
  rcases hlisted with rfl | hmem
  · exact h.root n hn
  · obtain ⟨m, hm, hreal⟩ := ht.listed a hmem
    rwa [Option.some.inj (hn.symm.trans hm)]

theorem TextsApart.of_boot (hb : VfsBoot v) : TextsApart v := by
  obtain ⟨mem, fb, rfl⟩ := hb
  have hroot : ∀ a n, (emptyVfs mem fb).node a = some n → n = rootNode := by
    intro a n hn
    by_cases ha : a = rootAddr
    · subst ha
      exact (Option.some.inj hn).symm
    · exact absurd hn (by simp [emptyVfs, ha])
  refine ⟨fun a n d hn hd => ?_, fun a b n m d hn hs => ?_, fun n hn => ?_⟩
  · rw [hroot a n hn] at hd
    cases hd
  · rw [hroot a n hn] at hs
    cases hs
  · rw [hroot _ n hn]
    rfl

/-- A store that keeps what the node is and its buffer. -/
theorem TextsApart.setNode {n' : Node} (h : TextsApart v) (hn : v.node a = some n)
    (hsynth : n'.synth = n.synth) (hdata : n'.data = n.data) : TextsApart (v.setNode a n') := by
  refine h.of_nodes (Nat.le_refl _) fun x m' hm' => ?_
  by_cases hx : x = a
  · subst hx
    rw [Vfs.node_setNode_self, Option.some.injEq] at hm'
    subst hm'
    exact ⟨n, hn, hsynth, fun d hd => .inl (hdata ▸ hd)⟩
  · rw [Vfs.node_setNode_ne hx] at hm'
    exact ⟨m', hm', rfl, fun d hd => .inl hd⟩

/-- A call that takes the node at `a` away with its buffer. -/
theorem TextsApart.drop (h : TextsApart v) (hn : v.node a = some n)
    (hnode : v'.node = Function.update v.node a none) (hsup : v'.nextObj = v.nextObj)
    (hbuf : ∀ d, n.data ≠ some d → v'.buf d = v.buf d) :
    TextsApart v' ∧ TextsKept v v' fun x => x = a := by
  refine ⟨h.of_nodes (Nat.le_of_eq hsup.symm) fun x n' hn' => ?_, fun x m hm hs hx => ?_⟩
  · rw [hnode] at hn'
    by_cases hx : x = a
    · rw [hx, Function.update_self] at hn'
      cases hn'
    · rw [Function.update_of_ne hx] at hn'
      exact ⟨n', hn', rfl, fun d hd => .inl hd⟩
  · refine ⟨?_, bytes_of_buf fun d hd => hbuf d fun hnd => hx ?_⟩
    · rw [hnode, Function.update_of_ne hx, hm]
    · exact (h.apart x a m n d hm hs hd hn hnd).symm

/-- No call changes the text of a synthetic file. -/
theorem TextsApart.step {call : VfsCall} (h : TextsApart v) (ht : NodeTable v)
    (hs : vfsCall v call = .ret v') :
    TextsApart v' ∧ TextsKept v v' fun a => call = .close a := by
  have hsup := ht.supply_step hs
  cases call_effect ht.fresh hs with
  | idle hu =>
      refine ⟨h.of_nodes hsup fun x n' hn' => ?_, fun a n hn _ _ => ?_⟩
      · exact ⟨n', hu.node ▸ hn', rfl, fun d hd => .inl hd⟩
      · exact ⟨(congrFun hu.node a).trans hn, bytes_of_buf fun d _ => congrFun hu.buf d⟩
  | @opened _ _ _ a n hn hlisted hv =>
      subst hv
      refine ⟨h.setNode hn rfl rfl, fun x m hm hsm _ => ⟨?_, rfl⟩⟩
      have hx : x ≠ a := by
        rintro rfl
        have hreal := h.real ht hm hlisted
        rw [hsm] at hreal
        cases hreal
      exact (Vfs.node_setNode_ne hx).trans hm
  | @made _ a n hm _ =>
      obtain ⟨hbuf, hnew, _, _, _, hlast⟩ := hm.data.spec
      have hother : ∀ x, x ≠ a → v'.node x = v.node x := by
        intro x hx
        rw [hm.node, Function.update_of_ne hx]
      have hold : ∀ x m, v.node x = some m → x ≠ a := fun x m hxm =>
        Nat.ne_of_lt (Nat.lt_of_lt_of_le (ht.lt_supply hxm) hm.fresh.1)
      refine ⟨h.cons hsup (n := n) (a := a) ?_ ?_ (fun d hd => .inl ⟨hnew d hd, ?_⟩) ?_, ?_⟩
      · rw [hm.node, Function.update_self]
      · obtain ⟨r, hr, _⟩ := ht.root
        exact Ne.symm (hold _ r hr)
      · exact Nat.lt_of_not_le fun hge => hlast d hge hd
      · exact fun x n' hx hn' => ⟨n', (hother x hx).symm.trans hn', rfl, rfl⟩
      · intro x m hxm hsm _
        refine ⟨(hother x (hold x m hxm)).trans hxm, bytes_of_buf fun d hd => ?_⟩
        exact hbuf d (h.below x m d hxm hd)
  | @linked _ _ _ a target k n t hl _ =>
      have hold : ∀ x m, v.node x = some m → x ≠ a := fun x m hxm =>
        Nat.ne_of_lt (Nat.lt_of_lt_of_le (ht.lt_supply hxm) hl.fresh.1)
      have hother : ∀ x, x ≠ a → v'.node x =
          Function.update v.node target (some { t with dataRefs := some k }) x := by
        intro x hx
        rw [hl.node, Function.update_of_ne hx]
      have hreal := h.real ht hl.live hl.listed
      have hdata : n.data = t.data := by simpa using congrArg Blob.data hl.shares
      refine ⟨h.cons hsup (n := n) (a := a) ?_ ?_ (fun d hd => .inr ⟨hl.real, ?_⟩) ?_, ?_⟩
      · rw [hl.node, Function.update_self]
      · obtain ⟨r, hr, _⟩ := ht.root
        exact Ne.symm (hold _ r hr)
      · exact ⟨target, t, hl.live, hreal, hdata ▸ hd⟩
      · intro x n' hx hn'
        rw [hother x hx] at hn'
        by_cases hxt : x = target
        · subst hxt
          rw [Function.update_self, Option.some.injEq] at hn'
          subst hn'
          exact ⟨t, hl.live, rfl, rfl⟩
        · rw [Function.update_of_ne hxt] at hn'
          exact ⟨n', hn', rfl, rfl⟩
      · intro x m hxm hsm _
        have hxt : x ≠ target := by
          rintro rfl
          rw [Option.some.inj (hl.live.symm.trans hxm), hsm] at hreal
          cases hreal
        refine ⟨?_, bytes_of_buf fun d _ => congrFun hl.buf d⟩
        rw [hother x (hold x m hxm), Function.update_of_ne hxt, hxm]
  | @wrote a _ _ _ hw =>
      obtain ⟨n, hn, _⟩ := Exec.bind_eq_ret.mp hw
      replace hn := Vfs.load_ret hn
      cases hsy : n.synth with
      | true =>
          rw [vfsWrite_synth hn hsy hw]
          exact ⟨h, fun _ _ hm _ _ => ⟨hm, rfl⟩⟩
      | false =>
          obtain ⟨happ, hkept⟩ := h.work hn hsy (.of_vfsWrite hw) (.of_vfsWrite hw)
          exact ⟨happ, fun x m hm hs _ => hkept x m hm hs id⟩
  | @truncated a _ _ hw =>
      obtain ⟨n, hn, _⟩ := Exec.bind_eq_ret.mp hw
      replace hn := Vfs.load_ret hn
      cases hsy : n.synth with
      | true =>
          rw [vfsTruncate_synth hn hsy hw]
          exact ⟨h, fun _ _ hm _ _ => ⟨hm, rfl⟩⟩
      | false =>
          obtain ⟨happ, hkept⟩ := h.work hn hsy (.of_vfsTruncate hw) (.of_vfsTruncate hw)
          exact ⟨happ, fun x m hm hs _ => hkept x m hm hs id⟩
  | @closed a ret hc =>
      obtain ⟨n, hn, ⟨k, rfl⟩ | ⟨_, _, _, _, hnode, hbuf, _, _, hobj⟩⟩ := vfsClose_ret hc
      · refine ⟨h.setNode hn rfl rfl, fun x m hm _ hx => ⟨?_, rfl⟩⟩
        have hxa : x ≠ a := fun he => hx (by rw [he])
        exact (Vfs.node_setNode_ne hxa).trans hm
      · obtain ⟨happ, hkept⟩ := h.drop hn hnode hobj fun d hd => by rw [hbuf, dropBuf_of_ne hd]
        exact ⟨happ, fun x m hm hs hx => hkept x m hm hs fun he => hx (by rw [he])⟩
  | @unlinked _ a _ hmem hun =>
      obtain ⟨n, hun⟩ := unlinkNode_ret hun
      have hbuf : ∀ d, n.data ≠ some d → v'.buf d = v.buf d := by
        intro d hd
        rcases hun.data with ⟨_, _, hb⟩ | ⟨c, k, _, _, _, hb⟩
        · rw [hb, dropBuf_of_ne hd]
        · rw [hb]
          split
          · exact dropBuf_of_ne hd
          · rfl
      obtain ⟨happ, hkept⟩ := h.drop hun.live hun.node hun.supply hbuf
      refine ⟨happ, fun x m hm hs _ => hkept x m hm hs ?_⟩
      rintro rfl
      have hreal := h.real ht hm (.inr hmem)
      rw [hs] at hreal
      cases hreal
  | @renamed c oldpath newpath a ret ha hr =>
      obtain ⟨n, hn, rfl⟩ := renameNode_ret hr
      obtain ⟨_, _, hmem, _⟩ := renameTarget_some ha
      refine ⟨h.of_nodes (Nat.le_refl _) fun x n' hn' => ?_, fun x m hm hs _ => ⟨?_, rfl⟩⟩
      · obtain ⟨m, hm, rfl⟩ := Option.map_eq_some_iff.mp hn'
        exact ⟨m, hm, rfl, fun d hd => .inl hd⟩
      · -- only nodes of the list are given other paths
        have hx : x ∉ v.nodes := by
          intro hx
          have hreal := h.real ht hm (.inr hx)
          rw [hs] at hreal
          cases hreal
        have hxa : x ≠ a := fun he => hx (he ▸ hmem)
        simp [hm, movedPath, hx, hxa]

theorem TextsApart.of_reach (h : vfsSystem.Reach v) : TextsApart v := by
  refine (System.ReachVia.invariant (I := fun v => NodeTable v ∧ TextsApart v) ?_ ?_ h).2
  · exact fun w hw => ⟨.of_boot hw, .of_boot hw⟩
  · exact fun w call w' ⟨ht, hx⟩ _ hs => ⟨ht.step hs, (hx.step ht hs).1⟩

end Texts

/-! ## Placing a node -/

section Placing

variable {v v' : Vfs} {call : VfsCall}

theorem synthLookup_proc (pids : List Nat) : synthLookup pids (str "/proc") = some .procDir := by
  rfl

theorem synthLookup_sys (pids : List Nat) : synthLookup pids (str "/sys") = some (.sysDir 0) := by
  rfl

/-- A link to what is no file changes nothing. -/
theorem vfsLink_not_linkable {c : Caller} {path targetPath : CStr} {ret : Int}
    (hl : linkable v c targetPath = false) (h : vfsLink v c path targetPath = .ret (v', ret)) :
    v' = v := by
  simp only [vfsLink] at h
  split at h
  · cases h
    rfl
  split at h
  · cases h
    rfl
  rename_i hsynth
  split at h
  · cases h
    rfl
  rename_i target hfind
  obtain ⟨t, ht, h⟩ := Exec.bind_eq_ret.mp h
  split at h
  · cases h
    rfl
  rename_i hdir
  -- a file was found, so that a link could be made
  have hnone := Option.not_isSome_iff_eq_none.mp hsynth
  simp [linkable, hfind, Vfs.load_ret ht, hnone, hdir] at hl

/-- A call that is kept out changes nothing. -/
theorem KeepsOut.refused {p : CStr} (hk : KeepsOut v call) (hp : call.creates = some p)
    (htree : inSynthTree p) (hs : vfsCall v call = .ret v') : v' = v := by
  cases call with
  | openPath c path flags =>
      obtain ⟨⟨w, r⟩, hw, hs⟩ := Exec.bind_eq_ret.mp hs
      cases hs
      simp only [VfsCall.creates, Option.ite_none_right_eq_some, Option.some.injEq] at hp
      obtain ⟨hcreat, rfl⟩ := hp
      obtain ⟨sid, hsid⟩ := Option.isSome_iff_exists.mp (hk c path (if_pos hcreat) htree)
      simp only [vfsOpen, hsid, if_pos hcreat] at hw
      cases hw
      rfl
  | mkdir c path =>
      obtain ⟨⟨w, r⟩, hw, hs⟩ := Exec.bind_eq_ret.mp hs
      cases hs
      cases hp
      rw [vfsMkdir, if_pos (hk c path rfl htree)] at hw
      cases hw
      rfl
  | link c path targetPath =>
      obtain ⟨⟨w, r⟩, hw, hs⟩ := Exec.bind_eq_ret.mp hs
      cases hs
      cases hp
      cases hl : linkable v c targetPath with
      | true =>
          rw [vfsLink, if_pos (hk c path (if_pos hl) htree)] at hw
          cases hw
          rfl
      | false => exact vfsLink_not_linkable hl hw
  | symlink c target linkpath =>
      obtain ⟨⟨w, r⟩, hw, hs⟩ := Exec.bind_eq_ret.mp hs
      cases hs
      cases hp
      by_cases hnil : target = []
      · subst hnil
        simp only [vfsSymlink, List.take_nil, if_true, ite_self] at hw
        cases hw
        rfl
      · rw [vfsSymlink, if_pos (hk c linkpath (if_neg hnil) htree)] at hw
        cases hw
        rfl
  | _ => cases hp

/-- What a rename moves below `/proc` or `/sys`, it does not move there
alone. -/
theorem KeepsOut.moved {c : Caller} {oldpath newpath p : CStr} {a x : Nat} {dir : Bool}
    (hk : KeepsOut v (.rename c oldpath newpath)) (ha : renameTarget v c oldpath newpath = some a)
    (hp : ¬inSynthTree p) :
    ¬inSynthTree (movedPath v a dir (c.resolve oldpath) (c.resolve newpath) x p) := by
  have hlen : (c.resolve newpath).length ≤ 255 := vfsResolvePath_length _ _
  have hsynth : synthLookup c.pids (c.resolve newpath) = none := by
    by_contra hne
    rw [renameTarget, if_pos (.inr (.inl (Option.isSome_iff_ne_none.mpr hne)))] at ha
    cases ha
  have hnew : ¬inSynthTree (c.resolve newpath) := by
    intro htree
    have hplaces : VfsCall.places v (.rename c oldpath newpath) = some (c, newpath) :=
      if_neg (by rw [ha]; exact Option.some_ne_none a)
    have hsome := hk c newpath hplaces htree
    rw [hsynth] at hsome
    cases hsome
  have htop : ∀ dir, TopName dir → (synthLookup c.pids dir).isSome →
      isBelow dir (c.resolve newpath) = false → isBelow (c.resolve oldpath) p →
      isBelow dir (rebase (c.resolve oldpath) (c.resolve newpath) p) = false := by
    intro dir htop hentry hout hbelow
    refine not_below_rebase htop (vfsResolvePath_ne_nil _ _) hlen hout ?_ hbelow
    rintro rfl
    rw [hsynth] at hentry
    cases hentry
  simp only [inSynthTree, Bool.or_eq_true, not_or, Bool.not_eq_true] at hnew hp ⊢
  unfold movedPath
  split
  · rw [show pathMax - 1 = 255 from rfl, List.take_of_length_le hlen]
    exact hnew
  · split
    · rename_i hb
      exact ⟨htop _ topName_proc (by rw [synthLookup_proc]; rfl) hnew.1 hb.2.2,
        htop _ topName_sys (by rw [synthLookup_sys]; rfl) hnew.2 hb.2.2⟩
    · exact hp

/-- A call that is kept out leaves the trees empty. -/
theorem TreesEmpty.step (he : TreesEmpty v) (ht : NodeTable v) (hk : KeepsOut v call)
    (hs : vfsCall v call = .ret v') : TreesEmpty v' := by
  intro x hx m hm
  have hp : v'.path x = some m.path := by rw [Vfs.path, hm, Option.map_some]
  have hold : ∀ {p : CStr}, x ∈ v.nodes → v.path x = some p → ¬inSynthTree p := by
    intro p hx hp
    obtain ⟨n, hn, rfl⟩ := Option.map_eq_some_iff.mp hp
    exact he x hx n hn
  generalize m.path = p at hp ⊢
  cases listed_path ht hs hx hp with
  | kept hx hp => exact hold hx hp
  | created hnodes hcreates =>
      intro htree
      -- the list has become longer, so the call was not refused
      rw [hk.refused hcreates htree hs] at hnodes
      exact absurd (congrArg List.length hnodes) (Nat.ne_of_lt (Nat.lt_succ_self _))
  | moved ha hx hq => exact hk.moved ha (hold hx hq)

end Placing

/-! ## Runs -/

/-- The file system from a state with nothing in the two trees on. -/
def emptyTreesSystem : System Vfs VfsCall where
  init := fun v => vfsSystem.Reach v ∧ TreesEmpty v
  step := fun v call v' => vfsCall v call = .ret v'

/-- No run changes the text of a synthetic file, and a run all of whose
calls are kept out leaves the two trees empty at every step. -/
theorem trees_read_only {tr : List (Vfs × VfsCall × Vfs)} {v : Vfs}
    (h : emptyTreesSystem.Trace tr v) :
    (∀ x ∈ tr, TextsKept x.1 x.2.2 fun a => x.2.1 = .close a) ∧
      ((∀ x ∈ tr, KeepsOut x.1 x.2.1) → ∀ x ∈ tr, TreesEmpty x.2.2) := by
  suffices H : (NodeTable v ∧ TextsApart v) ∧
      (∀ x ∈ tr, TextsKept x.1 x.2.2 fun a => x.2.1 = .close a) ∧
      ((∀ x ∈ tr, KeepsOut x.1 x.2.1) → TreesEmpty v ∧ ∀ x ∈ tr, TreesEmpty x.2.2) from
    ⟨H.2.1, fun hg => (H.2.2 hg).2⟩
  induction h with
  | nil hinit =>
      refine ⟨⟨.of_reach hinit.1, .of_reach hinit.1⟩, fun x hx => ?_, fun _ => ⟨hinit.2, fun x hx => ?_⟩⟩
      · cases hx
      · cases hx
  | snoc _ hs ih =>
      obtain ⟨⟨ht, happ⟩, hkept, hempty⟩ := ih
      obtain ⟨happ', hkept'⟩ := happ.step ht hs
      simp only [List.forall_mem_cons]
      refine ⟨⟨ht.step hs, happ'⟩, ⟨hkept', hkept⟩, fun hg => ?_⟩
      obtain ⟨he, hes⟩ := hempty hg.2
      have he' := he.step ht hg.1 hs
      exact ⟨he', he', hes⟩

/-- Before the first call. -/
theorem emptyTrees_boot : emptyTreesSystem.init (emptyVfs (memoryOf 0) none) :=
  ⟨.init ⟨memoryOf 0, none, rfl⟩, fun a ha => by cases ha⟩

/-- Making `/a`, and trying to make `/proc/version`, is a run that is kept
out. -/
theorem trees_after_refusal : ∃ v v' v'', emptyTreesSystem.step v (.mkdir rootCaller (str "/a")) v' ∧
    emptyTreesSystem.step v' (.openPath rootCaller (str "/proc/version") 0x40) v'' ∧
    (TextsKept v' v'' fun _ => False) ∧ TreesEmpty v'' := by
  obtain ⟨v', v'', hs, hs'⟩ : ∃ v' v'',
      emptyTreesSystem.step (emptyVfs (memoryOf 0) none) (.mkdir rootCaller (str "/a")) v' ∧
        emptyTreesSystem.step v' (.openPath rootCaller (str "/proc/version") 0x40) v'' := ⟨_, _, rfl, rfl⟩
  have htr := System.Trace.snoc (.snoc (.nil emptyTrees_boot) hs) hs'
  obtain ⟨htexts, htrees⟩ := trees_read_only htr
  have hkept := htexts _ List.mem_cons_self
  refine ⟨_, v', v'', hs, hs', fun a n hn hsy _ => hkept a n hn hsy nofun, htrees (fun x hx => ?_) _ List.mem_cons_self⟩
  intro c path hp htree
  obtain rfl | rfl : x = _ ∨ x = _ := List.mem_pair.mp hx
  · -- the path is that of an entry
    cases hp
    decide
  · cases hp
    exact absurd htree (by decide)

/-- With `O_CREAT` and no file of that name among the entries, an open of
`/proc/notes` makes it. -/
theorem file_made_below_proc : ¬∀ v, emptyTreesSystem.Reach v → TreesEmpty v := by
  intro hall
  have h := hall _ (reach_vfsCalls (S := emptyTreesSystem) id (.init emptyTrees_boot)
    [.openPath rootCaller (str "/proc/notes") 0x40] rfl)
  exact h 1 (by decide) _ rfl (by decide)

end LiteBSD
