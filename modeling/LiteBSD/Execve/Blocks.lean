/-
# `LiteBSD.Execve.Blocks` — what `execve` holds while it runs

Between its first `kmalloc` and its end, `execve` holds kernel buffers of its
own and at most one open node.  `Holding v w l` says that `w` is the state `v`
of before the call with the buffers `l` on top, all of them newer than `v`;
`Opened v w a d` says that the node at `a` is open, with the buffer `d` when
it is a generated file.  The lemmas say what each call of the source does to
the two, so that a path through `execve` that gives back what it took ends in
`Holding v w []`.

One thing is not given back: `vfs_open` counts the root, and `vfs_close`
passes over it.
-/
import LiteBSD.Execve.Model
import LiteBSD.Vfs.Supply

namespace LiteBSD.Execve

/-! ## Buffers -/

/-- The list of nodes, the counters, the framebuffer and the numbering are
the same. -/
structure Aside (v w : Vfs) : Prop where
  nodes : w.nodes = v.nodes
  cell : w.cell = v.cell
  fb : w.fb = v.fb
  nextIno : w.nextIno = v.nextIno

/-- `w` is `v` with the buffers `l`, which are newer. -/
structure Holding (v w : Vfs) (l : List Nat) : Prop where
  aside : Aside v w
  supply : v.nextObj ≤ w.nextObj
  nodup : l.Nodup
  fresh : ∀ b ∈ l, v.nextObj ≤ b ∧ b < w.nextObj
  old : ∀ b < v.nextObj, w.buf b = v.buf b
  live : ∀ b, v.nextObj ≤ b → ((w.buf b).isSome ↔ b ∈ l)

theorem Aside.trans {u v w : Vfs} (h : Aside u v) (h' : Aside v w) : Aside u w :=
  ⟨h'.nodes.trans h.nodes, h'.cell.trans h.cell, h'.fb.trans h.fb, h'.nextIno.trans h.nextIno⟩

namespace Holding

variable {v w w' : Vfs} {l l' : List Nat} {b : Nat}

theorem refl (h : Settled v) : Holding v v [] := by
  refine ⟨⟨rfl, rfl, rfl, rfl⟩, Nat.le_refl _, List.nodup_nil, fun b hb => absurd hb List.not_mem_nil,
    fun _ _ => rfl, fun b hb => ?_⟩
  rw [(h.fresh b hb).1]
  simp

theorem perm (h : Holding v w l) (hp : l.Perm l') : Holding v w l' :=
  ⟨h.aside, h.supply, hp.nodup_iff.mp h.nodup, fun b hb => h.fresh b (hp.mem_iff.mpr hb), h.old,
    fun b hb => (h.live b hb).trans hp.mem_iff⟩

/-- A step that leaves the buffers alone. -/
theorem step (h : Holding v w l) (ha : Aside w w') (hsup : w.nextObj ≤ w'.nextObj) (hbuf : w'.buf = w.buf) :
    Holding v w' l :=
  ⟨h.aside.trans ha, Nat.le_trans h.supply hsup, h.nodup,
    fun b hb => ⟨(h.fresh b hb).1, Nat.lt_of_lt_of_le (h.fresh b hb).2 hsup⟩,
    fun b hb => (congrFun hbuf b).trans (h.old b hb), fun b hb => hbuf ▸ h.live b hb⟩

/-- A buffer from the supply. -/
theorem take (h : Holding v w l) {m : Buf} (ha : Aside w w') (hb : w.nextObj ≤ b) (hlt : b < w'.nextObj)
    (hbuf : w'.buf = Function.update w.buf b (some m)) : Holding v w' (b :: l) := by
  have hnew : v.nextObj ≤ b := Nat.le_trans h.supply hb
  have hsup : w.nextObj ≤ w'.nextObj := Nat.le_of_lt (Nat.lt_of_le_of_lt hb hlt)
  refine ⟨h.aside.trans ha, Nat.le_trans h.supply hsup, List.nodup_cons.mpr ⟨fun hmem => ?_, h.nodup⟩,
    fun x hx => ?_, fun x hx => ?_, fun x hx => ?_⟩
  · exact absurd (h.fresh b hmem).2 (Nat.not_lt.mpr hb)
  · rcases List.mem_cons.mp hx with rfl | hx
    · exact ⟨hnew, hlt⟩
    · exact ⟨(h.fresh x hx).1, Nat.lt_of_lt_of_le (h.fresh x hx).2 hsup⟩
  · rw [hbuf, Function.update_of_ne (Nat.ne_of_lt (Nat.lt_of_lt_of_le hx hnew)), h.old x hx]
  · rw [hbuf, List.mem_cons]
    by_cases hxb : x = b
    · simp [hxb]
    · rw [Function.update_of_ne hxb, h.live x hx]
      simp [hxb]

/-- A store into one of the buffers. -/
theorem setBuf (h : Holding v w l) (hb : b ∈ l) (m : Buf) : Holding v (w.setBuf b m) l := by
  refine ⟨h.aside.trans ⟨rfl, rfl, rfl, rfl⟩, h.supply, h.nodup, h.fresh, fun x hx => ?_, fun x hx => ?_⟩
  · exact (Function.update_of_ne (Nat.ne_of_lt (Nat.lt_of_lt_of_le hx (h.fresh b hb).1)) _ _).trans (h.old x hx)
  · show (Function.update w.buf b (some m) x).isSome ↔ x ∈ l
    by_cases hxb : x = b
    · simp [hxb, hb]
    · rw [Function.update_of_ne hxb]
      exact h.live x hx

/-- A buffer goes. -/
theorem give (h : Holding v w (b :: l)) (ha : Aside w w') (hsup : w'.nextObj = w.nextObj)
    (hbuf : w'.buf = Function.update w.buf b none) : Holding v w' l := by
  obtain ⟨hnot, hnodup⟩ := List.nodup_cons.mp h.nodup
  refine ⟨h.aside.trans ha, hsup ▸ h.supply, hnodup,
    fun x hx => hsup ▸ h.fresh x (List.mem_cons_of_mem b hx), fun x hx => ?_, fun x hx => ?_⟩
  · have hne : x ≠ b := Nat.ne_of_lt (Nat.lt_of_lt_of_le hx (h.fresh b List.mem_cons_self).1)
    rw [hbuf, Function.update_of_ne hne, h.old x hx]
  · rw [hbuf]
    by_cases hxb : x = b
    · subst hxb
      simp [hnot]
    · rw [Function.update_of_ne hxb, h.live x hx]
      simp [hxb]

end Holding

/-- The block at `b` is for these bytes and holds them. -/
def Stores (v : Vfs) (b : Nat) (src : List UInt8) : Prop :=
  ∃ m, v.buf b = some m ∧ m.len = src.length ∧ m.read 0 src.length = src

/-- A step that keeps the nodes and the buffers below the supply. -/
structure Keeps (w w' : Vfs) : Prop where
  node : w'.node = w.node
  buf : ∀ b < w.nextObj, w'.buf b = w.buf b
  supply : w.nextObj ≤ w'.nextObj

theorem Stores.keep {w w' : Vfs} {b : Nat} {src : List UInt8} (h : Stores w b src) (hsame : w'.buf b = w.buf b) :
    Stores w' b src := by
  obtain ⟨m, hm, hrest⟩ := h
  exact ⟨m, hsame.trans hm, hrest⟩

/-- A step that frees these buffers. -/
structure Freed (w w' : Vfs) (l : List Nat) : Prop where
  node : w'.node = w.node
  supply : w'.nextObj = w.nextObj
  buf : ∀ b, b ∉ l → w'.buf b = w.buf b

theorem Freed.trans {u v w : Vfs} {l l' : List Nat} (h : Freed u v l) (h' : Freed v w l') :
    Freed u w (l ++ l') := by
  refine ⟨h'.node.trans h.node, h'.supply.trans h.supply, fun b hb => ?_⟩
  rw [List.mem_append, not_or] at hb
  exact (h'.buf b hb.2).trans (h.buf b hb.1)

theorem Keeps.trans {u v w : Vfs} (h : Keeps u v) (h' : Keeps v w) : Keeps u w :=
  ⟨h'.node.trans h.node, fun b hb => (h'.buf b (Nat.lt_of_lt_of_le hb h.supply)).trans (h.buf b hb),
    Nat.le_trans h.supply h'.supply⟩

section Calls

variable {v w w' : Vfs} {l : List Nat} {b : Nat} {src : List UInt8}

theorem read_write (m : Buf) (src : List UInt8) : (m.write 0 src).read 0 src.length = src := by
  refine List.ext_getElem? fun i => ?_
  unfold Buf.read Buf.write
  rcases Nat.lt_or_ge i src.length with hi | hi
  · simp [hi]
  · simp [hi]

theorem kmalloc_aside {size : Nat} {p : Option Nat} (h : w.kmalloc size = .ret (w', p)) : Aside w w' := by
  rcases (Vfs.kmalloc_ret h).1 with rfl | rfl <;> exact ⟨rfl, rfl, rfl, rfl⟩

theorem kmallocBuf_aside {size : Nat} {p : Option Nat} (h : w.kmallocBuf size = .ret (w', p)) :
    Aside w w' := by
  obtain ⟨⟨x, q⟩, hx, h⟩ := Exec.bind_eq_ret.mp h
  have ha := kmalloc_aside hx
  cases q <;> cases h
  · exact ha
  · exact ha.trans ⟨rfl, rfl, rfl, rfl⟩

theorem storeBytes_aside {data : Option Nat} {o : Nat} (h : w.storeBytes data o src = .ret w') :
    Aside w w' := by
  rcases Vfs.storeBytes_ret h with ⟨_, rfl⟩ | ⟨b, m, _, _, _, rfl⟩ <;> exact ⟨rfl, rfl, rfl, rfl⟩

/-- `kmalloc`, with the bytes stored. -/
theorem kmallocBytes_spec (h : Holding v w l) {p : Option Nat} (hk : kmallocBytes w src = .ret (w', p)) :
    Keeps w w' ∧ match p with
      | none => Holding v w' l
      | some b => Holding v w' (b :: l) ∧ w.nextObj ≤ b ∧ Stores w' b src := by
  obtain ⟨⟨u, q⟩, hu, hk⟩ := Exec.bind_eq_ret.mp hk
  have hau := kmallocBuf_aside hu
  rcases Vfs.kmallocBuf_ret hu with ⟨rfl, huw⟩ | ⟨rfl, rfl⟩
  · cases hk
    exact ⟨⟨huw.node, fun b _ => congrFun huw.buf b, huw.supply⟩, h.step hau huw.supply huw.buf⟩
  · obtain ⟨x, hx, hk⟩ := Exec.bind_eq_ret.mp hk
    have hax := hau.trans (storeBytes_aside hx)
    cases hk
    rcases Vfs.storeBytes_ret hx with ⟨rfl, rfl⟩ | ⟨b, m, hb, hm, _, rfl⟩
    · refine ⟨⟨rfl, fun b hb => Function.update_of_ne (Nat.ne_of_lt hb) _ _, Nat.le_succ _⟩,
        h.take hax (Nat.le_refl _) (Nat.lt_succ_self _) rfl, Nat.le_refl _, ?_⟩
      exact ⟨_, Function.update_self _ _ _, rfl, rfl⟩
    · cases hb
      have hm' : Function.update w.buf w.nextObj (some ⟨src.length, w.mem.junk w.nextObj⟩) w.nextObj = some m := hm
      rw [Function.update_self, Option.some.injEq] at hm'
      subst hm'
      refine ⟨⟨rfl, fun b hb => ?_, Nat.le_succ _⟩,
        h.take hax (Nat.le_refl _) (Nat.lt_succ_self _) (Function.update_idem _ _ _), Nat.le_refl _, ?_⟩
      · exact (Function.update_of_ne (Nat.ne_of_lt hb) _ _).trans (Function.update_of_ne (Nat.ne_of_lt hb) _ _)
      · exact ⟨_, Function.update_self _ _ _, rfl, read_write _ _⟩

theorem kfreeBuf_spec (h : Holding v w (b :: l)) (hk : kfreeBuf w b = .ret w') :
    Holding v w' l ∧ Freed w w' [b] := by
  unfold kfreeBuf at hk
  split at hk
  · cases hk
  · cases hk
    refine ⟨h.give ⟨rfl, rfl, rfl, rfl⟩ rfl rfl, rfl, rfl, fun x hx => ?_⟩
    exact Function.update_of_ne (fun he => hx (List.mem_singleton.mpr he)) _ _

/-- The buffers of a vector. -/
def bufs (entries : List KString) : List Nat := entries.map KString.buf

theorem execFreeVec_spec {entries : List KString} (h : Holding v w (bufs entries ++ l))
    (hk : execFreeVec w entries = .ret w') : Holding v w' l ∧ Freed w w' (bufs entries) := by
  induction entries generalizing w with
  | nil =>
      cases hk
      exact ⟨h, rfl, rfl, fun _ _ => rfl⟩
  | cons k entries ih =>
      obtain ⟨u, hu, hk⟩ := Exec.bind_eq_ret.mp hk
      obtain ⟨h, hfreed⟩ := kfreeBuf_spec h hu
      obtain ⟨h, hfreed'⟩ := ih h hk
      exact ⟨h, hfreed.trans hfreed'⟩

theorem giveUp_spec {argv envv : Vec} (h : Holding v w (bufs argv.entries ++ (bufs envv.entries ++ l)))
    (hk : giveUp w argv envv = .ret w') :
    Holding v w' l ∧ Freed w w' (bufs argv.entries ++ bufs envv.entries) := by
  obtain ⟨u, hu, hk⟩ := Exec.bind_eq_ret.mp hk
  obtain ⟨h, hfreed⟩ := execFreeVec_spec h hu
  obtain ⟨h, hfreed'⟩ := execFreeVec_spec h hk
  exact ⟨h, hfreed.trans hfreed'⟩

end Calls

/-! ## The open node -/

/-- The nodes but for how often the root is counted. -/
def RootOnly (f g : Nat → Option Node) : Prop :=
  (∀ x, x ≠ rootAddr → g x = f x) ∧
    ∃ n k, f rootAddr = some n ∧ n.refs ≤ k ∧ g rootAddr = some { n with refs := k }

/-- The node at `a` is open, and no other one that was not; a generated file
has a buffer. -/
inductive Opened (v w : Vfs) : Nat → List Nat → Prop
  | root : RootOnly v.node w.node → Opened v w rootAddr []
  | real {a : Nat} {n : Node} {g : Nat → Option Node} : a ≠ rootAddr → RootOnly v.node g → g a = some n →
      n.synth = false → 0 ≤ n.refs → w.node = Function.update g a (some { n with refs := n.refs + 1 }) →
      Opened v w a []
  | synth {a : Nat} {n : Node} {g : Nat → Option Node} : a ≠ rootAddr → RootOnly v.node g → g a = none →
      n.synth = true → n.refs = 1 → w.node = Function.update g a (some n) → Opened v w a n.data.toList

section Opening

variable {v w w' : Vfs} {l d : List Nat} {a : Nat}

theorem RootOnly.refl (h : NodeTable v) : RootOnly v.node v.node := by
  obtain ⟨n, hn, _⟩ := h.root
  exact ⟨fun _ _ => rfl, n, n.refs, hn, Int.le_refl _, hn⟩

theorem vfsOpen_aside {c : Caller} {path : CStr} {p : Option Nat} (h : vfsOpen w c path 0 = .ret (w', p)) :
    Aside w w' := by
  unfold vfsOpen at h
  dsimp only at h
  split at h
  · rw [if_neg (by decide)] at h
    unfold synthOpen at h
    split at h
    · cases h
      exact ⟨rfl, rfl, rfl, rfl⟩
    · obtain ⟨⟨x, q⟩, hx, h⟩ := Exec.bind_eq_ret.mp h
      refine (kmalloc_aside hx).trans ?_
      cases q with
      | none =>
          cases h
          exact ⟨rfl, rfl, rfl, rfl⟩
      | some b =>
          obtain ⟨⟨y, data⟩, hy, h⟩ := Exec.bind_eq_ret.mp h
          refine (kmallocBuf_aside hy).trans ?_
          dsimp only at h
          split at h
          · cases h
            exact ⟨rfl, rfl, rfl, rfl⟩
          · obtain ⟨z, hz, h⟩ := Exec.bind_eq_ret.mp h
            refine (storeBytes_aside hz).trans ?_
            cases h
            exact ⟨rfl, rfl, rfl, rfl⟩
  · split at h
    · obtain ⟨target, _, h⟩ := Exec.bind_eq_ret.mp h
      cases target with
      | none =>
          cases h
          exact ⟨rfl, rfl, rfl, rfl⟩
      | some t =>
          obtain ⟨n, _, h⟩ := Exec.bind_eq_ret.mp h
          cases h
          exact ⟨rfl, rfl, rfl, rfl⟩
    · rw [if_neg (by decide)] at h
      cases h
      exact ⟨rfl, rfl, rfl, rfl⟩

/-- Opening a file for reading. -/
theorem vfsOpen_spec (hv : Settled v) (h : Holding v w l) (hr : RootOnly v.node w.node) {c : Caller}
    {path : CStr} {p : Option Nat} (ho : vfsOpen w c path 0 = .ret (w', p)) :
    (∀ b < w.nextObj, w'.buf b = w.buf b) ∧ w.nextObj ≤ w'.nextObj ∧
      match p with
      | none => Holding v w' l ∧ RootOnly v.node w'.node
      | some a => ∃ d, Opened v w' a d ∧ Holding v w' (d ++ l) := by
  have ha := vfsOpen_aside ho
  cases vfsOpen_effect ho with
  | failed hu => exact ⟨fun b _ => congrFun hu.buf b, hu.supply, h.step ha hu.supply hu.buf, hu.node ▸ hr⟩
  | @found a n hn hlisted he =>
      subst he
      refine ⟨fun _ _ => rfl, Nat.le_refl _, [], ?_, h.step ha (Nat.le_refl _) rfl⟩
      by_cases hroot : a = rootAddr
      · subst hroot
        obtain ⟨hrest, m, k, hm, hk, hw⟩ := hr
        obtain rfl := Option.some.inj (hn.symm.trans hw)
        refine .root ⟨fun x hx => (Vfs.node_setNode_ne hx).trans (hrest x hx), m, k + 1, hm, ?_, ?_⟩
        · exact Int.le_add_one hk
        · exact Vfs.node_setNode_self _ _ _
      · have hvn : v.node a = some n := (hr.1 a hroot).symm.trans hn
        have hmem : a ∈ v.nodes := h.aside.nodes ▸ hlisted.resolve_left hroot
        obtain ⟨m, hm, hreal⟩ := hv.table.listed a hmem
        obtain rfl : n = m := Option.some.inj (hvn.symm.trans hm)
        exact .real hroot hr hn hreal (hv.counts a n hvn) rfl
  | @made a n hm hcreated =>
      have hsynth : n.synth = true := by
        cases hs : n.synth with
        | true => rfl
        | false => exact absurd (hcreated hs) (by simp [oCreat])
      have hnew : v.nextObj ≤ a := Nat.le_trans h.supply hm.fresh.1
      have hnone : v.node a = none := hv.table.fresh a hnew
      have hroot : a ≠ rootAddr := by
        rintro rfl
        obtain ⟨r, hr, _⟩ := hv.table.root
        rw [hnone] at hr
        cases hr
      have hsup : w.nextObj ≤ w'.nextObj := Nat.le_of_lt (Nat.lt_of_le_of_lt hm.fresh.1 hm.fresh.2)
      have hopen : Opened v w' a n.data.toList :=
        .synth hroot hr ((hr.1 a hroot).trans hnone) hsynth hm.counted hm.node
      rcases hm.data with ⟨hd, _, hbuf⟩ | ⟨b, m, hd, hlo, hhi, _, hbuf⟩
      · rw [hd] at hopen
        exact ⟨fun b _ => congrFun hbuf b, hsup, [], hopen, h.step ha hsup hbuf⟩
      · rw [hd] at hopen
        refine ⟨fun x hx => ?_, hsup, [b], hopen, h.take ha hlo hhi hbuf⟩
        rw [hbuf, Function.update_of_ne (Nat.ne_of_lt (Nat.lt_of_lt_of_le hx hlo))]

/-- Closing it again. -/
theorem vfsClose_spec (ho : Opened v w a d) (h : Holding v w (d ++ l)) {ret : Int}
    (hc : vfsClose w a = .ret (w', ret)) :
    Holding v w' l ∧ RootOnly v.node w'.node ∧ ∀ x, x ∉ d → w'.buf x = w.buf x := by
  obtain ⟨n, hn, hcase⟩ := vfsClose_counted hc
  cases ho with
  | root hr =>
      rcases hcase with ⟨_, rfl⟩ | ⟨_, hroot, _⟩
      · have hself : Function.update w.node rootAddr (some (countDown rootAddr n)) = w.node := by
          rw [countDown, if_neg (fun hc => hc.1 rfl), ← hn, Function.update_eq_self]
        refine ⟨h.step ⟨rfl, rfl, rfl, rfl⟩ (Nat.le_refl _) rfl, ?_, fun _ _ => rfl⟩
        show RootOnly v.node (Function.update w.node rootAddr _)
        rw [hself]
        exact hr
      · exact absurd rfl hroot
  | @real _ m g hroot hr hg hsynth hpos hnode =>
      rw [hnode, Function.update_self, Option.some.injEq] at hn
      subst hn
      rcases hcase with ⟨_, rfl⟩ | ⟨hs, _, _⟩
      · refine ⟨h.step ⟨rfl, rfl, rfl, rfl⟩ (Nat.le_refl _) rfl, ?_, fun _ _ => rfl⟩
        show RootOnly v.node (Function.update w.node a _)
        have hback : countDown a { m with refs := m.refs + 1 } = m := by
          rw [countDown, if_pos ⟨hroot, Int.lt_add_one_of_le hpos⟩]
          simp
        rw [hnode, Function.update_idem, hback, ← hg, Function.update_eq_self]
        exact hr
      · exact absurd hs (by simp [hsynth])
  | @synth _ m g hroot hr hg hsynth hone hnode =>
      rw [hnode, Function.update_self, Option.some.injEq] at hn
      subst hn
      rcases hcase with ⟨hkeep, _⟩ | ⟨_, _, rfl⟩
      · exact absurd ⟨hsynth, hroot, Int.le_of_eq hone⟩ hkeep
      · have hgone : Function.update (Function.update w.node a (some (countDown a m))) a none = g := by
          rw [hnode, Function.update_idem, Function.update_idem, ← hg, Function.update_eq_self]
        cases hd : m.data with
        | none =>
            rw [hd] at h
            refine ⟨h.step ⟨rfl, rfl, rfl, rfl⟩ (Nat.le_refl _) rfl, ?_, fun _ _ => rfl⟩
            show RootOnly v.node (Function.update (Function.update w.node a _) a none)
            rw [hgone]
            exact hr
        | some b =>
            rw [hd] at h
            refine ⟨h.give ⟨rfl, rfl, rfl, rfl⟩ rfl rfl, ?_, fun x hx => ?_⟩
            · show RootOnly v.node (Function.update (Function.update w.node a _) a none)
              rw [hgone]
              exact hr
            · exact Function.update_of_ne (fun he => hx (by simp [he])) _ _

end Opening

end LiteBSD.Execve
