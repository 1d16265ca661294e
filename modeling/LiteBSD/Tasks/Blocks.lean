/-
# `LiteBSD.Tasks.Blocks` — which blocks a call has taken, and what the heap is charged with

`Grown s s' l`: the heap of `s'` is that of `s` with the blocks of data `l`
on top, which are newer.  `kmalloc` puts one on, `kfree` takes one off; two
stretches of a run put their lists together.  With nothing left on top the
two are charged the same (`Grown.heapUsed`), whatever `kmalloc` added to each
request.
-/
import LiteBSD.Tasks.Steady
import Mathlib.Algebra.BigOperators.Group.Finset.Basic

namespace LiteBSD.Execve

variable {v w x : Vfs} {l l' : List Nat}

theorem RootOnly.trans {f g h : Nat → Option Node} (h₁ : RootOnly f g) (h₂ : RootOnly g h) : RootOnly f h := by
  obtain ⟨hsame, n, k, hn, hle, hk⟩ := h₁
  obtain ⟨hsame', n', k', hn', hle', hk'⟩ := h₂
  rw [hk, Option.some.injEq] at hn'
  subst hn'
  exact ⟨fun x hx => (hsame' x hx).trans (hsame x hx), n, k', hn, Int.le_trans hle hle', hk'⟩

theorem Restored.refl (hv : Settled v) : Restored v v [] := ⟨.refl hv, .refl hv.table⟩

theorem Restored.trans (h : Restored v w l) (h' : Restored w x l') : Restored v x (l' ++ l) := by
  obtain ⟨h, hroot⟩ := h
  obtain ⟨h', hroot'⟩ := h'
  have hapart : ∀ b ∈ l, b ∉ l' := fun b hb hb' =>
    absurd (h.fresh b hb).2 (Nat.not_lt.mpr (h'.fresh b hb').1)
  refine ⟨⟨h.aside.trans h'.aside, Nat.le_trans h.supply h'.supply, ?_, fun b hb => ?_, fun b hb => ?_, fun b hb => ?_⟩,
    hroot.trans hroot'⟩
  · exact List.nodup_append.mpr ⟨h'.nodup, h.nodup, fun b hb c hc he => hapart c hc (he ▸ hb)⟩
  · rcases List.mem_append.mp hb with hb | hb
    · exact ⟨Nat.le_trans h.supply (h'.fresh b hb).1, (h'.fresh b hb).2⟩
    · exact ⟨(h.fresh b hb).1, Nat.lt_of_lt_of_le (h.fresh b hb).2 h'.supply⟩
  · rw [h'.old b (Nat.lt_of_lt_of_le hb h.supply), h.old b hb]
  · rw [List.mem_append]
    rcases Nat.lt_or_ge b w.nextObj with hlt | hge
    · have hnot : b ∉ l' := fun hb' => absurd hlt (Nat.not_lt.mpr (h'.fresh b hb').1)
      rw [h'.old b hlt, h.live b hb]
      exact ⟨.inr, fun h => h.resolve_left hnot⟩
    · have hnot : b ∉ l := fun hb' => absurd (h.fresh b hb').2 (Nat.not_lt.mpr hge)
      rw [h'.live b hge]
      exact ⟨.inl, fun h => h.resolve_right hnot⟩

/-- `kmalloc` puts a block on top. -/
theorem Restored.kmallocBuf (h : Restored v w l) {size : Nat} {p : Option Nat}
    (hk : w.kmallocBuf size = .ret (x, p)) : match p with
      | none => Restored v x l
      | some b => Restored v x (b :: l) ∧ (x.buf b).map Buf.len = some size := by
  have ha := kmallocBuf_aside hk
  rcases Vfs.kmallocBuf_ret hk with ⟨rfl, hu⟩ | ⟨rfl, rfl⟩
  · exact ⟨h.1.step ha hu.supply hu.buf, by rw [hu.node]; exact h.2⟩
  · refine ⟨⟨h.1.take ha (Nat.le_refl _) (Nat.lt_succ_self _) rfl, h.2⟩, ?_⟩
    show (Function.update w.buf w.nextObj _ w.nextObj).map _ = _
    rw [Function.update_self]
    rfl

/-- A store into a block on top. -/
theorem Restored.copyBytes (h : Restored v w l) {dst n : Nat} {data : Option Nat} (hd : dst ∈ l)
    (hk : w.copyBytes dst data n = .ret x) : Restored v x l ∧ ∀ b, (x.buf b).map Buf.len = (w.buf b).map Buf.len := by
  rcases Vfs.copyBytes_ret hk with ⟨_, rfl⟩ | ⟨b, src, m, _, _, hm, rfl⟩
  · exact ⟨h, fun _ => rfl⟩
  · refine ⟨⟨h.1.setBuf hd _, h.2⟩, fun c => ?_⟩
    show (Function.update w.buf dst (some (m.copy src n)) c).map _ = _
    by_cases hc : c = dst
    · rw [hc, Function.update_self, hm]
      rfl
    · rw [Function.update_of_ne hc]

/-- A block on top can be given back. -/
theorem Restored.kfreeBuf {b : Nat} (h : Restored v w l) (hb : b ∈ l) :
    ∃ x, kfreeBuf w b = .ret x ∧ Restored v x (l.erase b) ∧ ∀ c, c ≠ b → x.buf c = w.buf c := by
  obtain ⟨m, hm⟩ := Option.isSome_iff_exists.mp ((h.1.live b (h.1.fresh b hb).1).mpr hb)
  have hfree : Execve.kfreeBuf w b = .ret (w.freeBuf (some b)) := by
    unfold Execve.kfreeBuf
    rw [hm]
  have hhold := kfreeBuf_spec (h.1.perm (List.perm_cons_erase hb)) hfree
  exact ⟨_, hfree, ⟨hhold.1, h.2⟩, fun c hc => Function.update_of_ne hc _ _⟩

end LiteBSD.Execve

namespace LiteBSD.Tasks

open Lib Files

/-! ## What the heap is charged with -/

/-- What `kmalloc` was asked for, for the object at `b`.  The ring of a pipe
goes with its pipe, and is not counted apart. -/
def blockOf (k : Kernel) (b : Nat) : Option Nat :=
  (k.vfs.buf b).map Buf.len <|> (k.vfs.cell b).map (fun _ => 4) <|>
    (if b = rootAddr then none else (k.vfs.node b).map fun _ => nodeSize) <|>
    (k.file b).map (fun _ => fileSize) <|> (k.pipe b).map fun _ => pipeStructSize

/-- The charge for `b`: its header and the `size` of its block, which is
larger than what was asked for by `slack b`. -/
def charge (slack : Nat → Nat) (k : Kernel) (b : Nat) : Nat :=
  match blockOf k b with
  | none => 0
  | some size => headerSize + (alignSize size + slack b)

/-- `heap_used` -/
def heapUsed (slack : Nat → Nat) (k : Kernel) : Nat := (Finset.range k.vfs.nextObj).sum (charge slack k)

section Charge

variable {k k' : Kernel} {l : List Nat} {slack : Nat → Nat}

/-- What is not on top is charged as before. -/
theorem blockOf_restored (hv : Settled k.vfs) (h : Execve.Restored k.vfs k'.vfs l) {b : Nat} (hb : b ∉ l)
    (hfile : (k'.file b).isSome = (k.file b).isSome) (hpipe : (k'.pipe b).isSome = (k.pipe b).isSome) :
    blockOf k' b = blockOf k b := by
  obtain ⟨hhold, hroot⟩ := h
  have hbuf : k'.vfs.buf b = k.vfs.buf b := by
    rcases Nat.lt_or_ge b k.vfs.nextObj with hlt | hge
    · exact hhold.old b hlt
    · rw [(hv.fresh b hge).1]
      exact Option.not_isSome_iff_eq_none.mp fun hs => hb ((hhold.live b hge).mp hs)
  have hnode : (if b = rootAddr then none else (k'.vfs.node b).map fun _ => nodeSize) =
      if b = rootAddr then none else (k.vfs.node b).map fun _ => nodeSize := by
    split
    · rfl
    · rename_i hne
      rw [hroot.1 b hne]
  have hmap : ∀ {α : Type} {p q : Option α} {n : Nat}, p.isSome = q.isSome →
      p.map (fun _ => n) = q.map fun _ => n := by
    intro α p q n h
    cases p <;> cases q
    · rfl
    · cases h
    · cases h
    · rfl
  unfold blockOf
  rw [hbuf, hhold.aside.cell, hnode, hmap hfile, hmap hpipe]

/-- Nothing is charged where the supply has not been. -/
theorem charge_fresh (h : Steady k k) {b : Nat} (hb : k.vfs.nextObj ≤ b) : charge slack k b = 0 := by
  obtain ⟨hbuf, hcell⟩ := h.vfs.fresh b hb
  have hfile : k.file b = none := by
    cases hx : k.file b with
    | none => rfl
    | some x => exact absurd (h.file b x hx).1 (Nat.not_lt.mpr hb)
  have hpipe : k.pipe b = none := by
    by_contra hne
    exact absurd (h.pipe b hne) (Nat.not_lt.mpr hb)
  have hnone : blockOf k b = none := by
    unfold blockOf
    rw [hbuf, hcell, h.vfs.table.fresh b hb, hfile, hpipe]
    split <;> rfl
  rw [charge, hnone]

/-- The charge as a sum over more of the supply. -/
theorem heapUsed_eq (h : Steady k k) {n : Nat} (hn : k.vfs.nextObj ≤ n) :
    heapUsed slack k = (Finset.range n).sum (charge slack k) := by
  refine Finset.sum_subset (Finset.range_mono hn) fun b _ hb => ?_
  exact charge_fresh h (Nat.le_of_not_lt fun hlt => hb (Finset.mem_range.mpr hlt))

end Charge

/-! ## Blocks on top -/

/-- The heap of `s'` is that of `s` with the blocks of data `l` on top. -/
structure Grown (s s' : State) (l : List Nat) : Prop where
  blocks : Execve.Restored s.kernel.vfs s'.kernel.vfs l
  file : ∀ f, (s'.kernel.file f).isSome = (s.kernel.file f).isSome
  pipe : s'.kernel.pipe = s.kernel.pipe
  block : s'.kernel.block = s.kernel.block
  place : s'.place = s.place

namespace Grown

variable {s s₁ s₂ : State} {l l' : List Nat}

theorem refl (hv : Settled s.kernel.vfs) : Grown s s [] := ⟨.refl hv, fun _ => rfl, rfl, rfl, rfl⟩

theorem trans (h : Grown s s₁ l) (h' : Grown s₁ s₂ l') : Grown s s₂ (l' ++ l) :=
  ⟨h.blocks.trans h'.blocks, fun f => (h'.file f).trans (h.file f), h'.pipe.trans h.pipe, h'.block.trans h.block,
    h'.place.trans h.place⟩

theorem perm (h : Grown s s₁ l) (hp : l.Perm l') : Grown s s₁ l' :=
  ⟨⟨h.blocks.1.perm hp, h.blocks.2⟩, h.file, h.pipe, h.block, h.place⟩

/-- A store into a task struct takes no block. -/
theorem setBody (h : Grown s s₁ l) (t : Nat) (b : Body) : Grown s (s₁.setBody t b) l :=
  ⟨h.blocks, h.file, h.pipe, h.block, h.place⟩

theorem withVfs (h : Grown s s₁ l) {v : Vfs} (hv : Execve.Restored s.kernel.vfs v l') : Grown s (s₁.withVfs v) l' :=
  ⟨hv, h.file, h.pipe, h.block, h.place⟩

theorem kmallocBuf (h : Grown s s₁ l) (size : Nat) : (s₁.kmallocBuf size).Ensures fun r =>
    r.1.kernel = { s₁.kernel with vfs := r.1.kernel.vfs } ∧ r.1.body = s₁.body ∧
      match r.2 with
        | none => Grown s r.1 l
        | some b => Grown s r.1 (b :: l) ∧ (r.1.kernel.vfs.buf b).map Buf.len = some size := by
  refine .bind (P := fun q => s₁.kernel.vfs.kmallocBuf size = .ret q) (fun _ hq => hq) fun ⟨v, p⟩ hv => .ret ?_
  refine ⟨rfl, rfl, ?_⟩
  have hr := h.blocks.kmallocBuf hv
  cases p with
  | none => exact h.withVfs hr
  | some b => exact ⟨h.withVfs hr.1, hr.2⟩

/-- A block on top can be given back. -/
theorem kfree (h : Grown s s₁ l) {b : Nat} (hb : b ∈ l) : ∃ s', s₁.kfree b = .ret s' ∧ Grown s s' (l.erase b) ∧
    s'.body = s₁.body ∧ s'.kernel = { s₁.kernel with vfs := s'.kernel.vfs } := by
  obtain ⟨v, hfree, hv, _⟩ := h.blocks.kfreeBuf hb
  refine ⟨s₁.withVfs v, ?_, h.withVfs hv, rfl, rfl⟩
  rw [State.kfree, hfree]
  rfl

/-- With nothing on top the heap is charged as before. -/
theorem heapUsed (hs : Steady s.kernel s.kernel) (h : Grown s s₁ []) (slack : Nat → Nat) :
    Tasks.heapUsed slack s₁.kernel = Tasks.heapUsed slack s.kernel := by
  rw [heapUsed_eq hs h.blocks.1.supply, Tasks.heapUsed]
  refine Finset.sum_congr rfl fun b _ => ?_
  have hblock := blockOf_restored hs.vfs h.blocks List.not_mem_nil (h.file b)
    (congrArg Option.isSome (congrFun h.pipe b))
  rw [charge, charge, hblock]

end Grown

end LiteBSD.Tasks
