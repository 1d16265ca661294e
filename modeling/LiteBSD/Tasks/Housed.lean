/-
# `LiteBSD.Tasks.Housed` — what tasks own lies below the supply

The life of one child is looked at between two states of any run, so something
must be known of the first: descriptors and file system are in order
(`Steady`), and all that a task owns has an address that was handed out
(`Housed`).  Every event keeps this, whatever `munmap` gives back and whoever
shares a file too often.

All events but `munmap` are tidy: they give back what a task owns or what they
have taken themselves, and no other block, and what a task owns afterwards was
owned before or is new (`Tidy`).
-/
import LiteBSD.Tasks.Slots
import LiteBSD.Tasks.Snapshots
import LiteBSD.Vfs.Nodeless

namespace LiteBSD.Tasks

open Lib Files

/-- The blocks that the task `c` is to give back. -/
def owned (s : State) (c : Nat) : List Nat :=
  c :: (s.body c).stackBase :: ((s.body c).userStackBase.toList ++ (s.body c).imgSnapshot.toList)

/-- Descriptors and file system are in order, and what a task owns lies below
the supply. -/
structure Housed (s : State) : Prop where
  steady : Steady s.kernel s.kernel
  below : ∀ u ∈ s.kernel.tasks, ∀ b ∈ owned s u, b < s.kernel.vfs.nextObj

/-- No file has both a node and a pipe. -/
def OneKinds (k : Kernel) : Prop := ∀ f x, k.file f = some x → x.oneKind

/-- Between `s` and `s'` only blocks of tasks are given back, and the tasks own
what tasks owned before, or blocks from the supply. -/
structure Tidy (s s' : State) : Prop where
  steady : Steady s'.kernel s'.kernel
  kinds : OneKinds s'.kernel
  supply : s.kernel.vfs.nextObj ≤ s'.kernel.vfs.nextObj
  heirs : ∀ u ∈ s'.kernel.tasks, ∀ b ∈ owned s' u,
    Since s.kernel.vfs s'.kernel.vfs b ∨ ∃ w ∈ s.kernel.tasks, b ∈ owned s w
  spares : ∀ b m, Nodeless s.kernel.vfs b m → (∀ u ∈ s.kernel.tasks, b ∉ owned s u) →
    Nodeless s'.kernel.vfs b m

section Tidy

variable {s s₁ s₂ : State} {b c t : Nat} {k : Kernel} {m : Buf}

theorem owned_setBody_of_ne {body : Body} {u : Nat} (hu : u ≠ t) : owned (s.setBody t body) u = owned s u := by
  unfold owned State.setBody
  dsimp only
  rw [Function.update_of_ne hu]

theorem Housed.task (h : Housed s) : ∀ u ∈ s.kernel.tasks, u < s.kernel.vfs.nextObj := fun u hu =>
  h.below u hu u List.mem_cons_self

theorem Housed.stack (h : Housed s) :
    ∀ u ∈ s.kernel.tasks, ∀ b, (s.body u).userStackBase = some b → b < s.kernel.vfs.nextObj := fun u hu b hb =>
  h.below u hu b (by simp [owned, hb])

theorem Housed.refl (h : Housed s) (hk : OneKinds s.kernel) : Tidy s s :=
  ⟨h.steady, hk, Nat.le_refl _, fun u hu _ hb => .inr ⟨u, hu, hb⟩, fun _ _ hf _ => hf⟩

/-- What is kept of a state by a tidy step. -/
theorem Tidy.housed (h : Tidy s s₁) (hs : Housed s) : Housed s₁ := by
  refine ⟨h.steady, fun u hu b hb => ?_⟩
  rcases h.heirs u hu b hb with hnew | ⟨w, hw, hold⟩
  · exact hnew.2
  · exact Nat.lt_of_lt_of_le (hs.below w hw b hold) h.supply

/-- Only the file system is another one. -/
theorem Tidy.withVfs (h : Tidy s s₁) {v : Vfs} (hv : Settled v) (hsup : s₁.kernel.vfs.nextObj ≤ v.nextObj)
    (hspares : ∀ b m, Nodeless s₁.kernel.vfs b m → b < s.kernel.vfs.nextObj →
      (∀ u ∈ s.kernel.tasks, b ∉ owned s u) → Nodeless v b m) : Tidy s (s₁.withVfs v) := by
  refine ⟨(h.steady.withVfs hv hsup).self, h.kinds, Nat.le_trans h.supply hsup, fun u hu b hb => ?_, fun b m hf hun => ?_⟩
  · exact (h.heirs u hu b hb).imp_left fun hnew => hnew.mono hsup
  · exact hspares b m (h.spares b m hf hun) hf.below hun

theorem Tidy.kmallocBuf (h : Tidy s s₁) (size : Nat) : (s₁.kmallocBuf size).Ensures fun r =>
    Tidy s r.1 ∧ s₁.kernel.vfs.nextObj ≤ r.1.kernel.vfs.nextObj ∧ r.1.kernel.tasks = s₁.kernel.tasks ∧
      r.1.body = s₁.body ∧ ∀ b, r.2 = some b → Since s.kernel.vfs r.1.kernel.vfs b := by
  refine .bind (P := fun q => s₁.kernel.vfs.kmallocBuf size = .ret q) (fun _ hq => hq) fun q hq => .ret ?_
  obtain ⟨v, p⟩ := q
  obtain ⟨hlater, hle, hp⟩ := (Later.refl h.steady.vfs).kmallocBuf hq
  refine ⟨h.withVfs hlater.settled hle fun b m hf _ _ => (hf.kmallocBuf hq).1, hle, rfl, rfl, fun b hb => ?_⟩
  obtain ⟨hb, hlt⟩ := hp b hb
  exact ⟨hb ▸ h.supply, hlt⟩

/-- A block that was taken since, or that a task owned, can be given back. -/
theorem Tidy.kfree (h : Tidy s s₁) (hc : s.kernel.vfs.nextObj ≤ c ∨ ∃ u ∈ s.kernel.tasks, c ∈ owned s u) :
    (s₁.kfree c).Ensures fun s₂ => Tidy s s₂ ∧ s₂.kernel.vfs.nextObj = s₁.kernel.vfs.nextObj ∧
      s₂.kernel.tasks = s₁.kernel.tasks ∧ s₂.body = s₁.body := by
  refine .bind (P := fun v => Execve.kfreeBuf s₁.kernel.vfs c = .ret v) (fun _ hq => hq) fun v hv => .ret ?_
  unfold Execve.kfreeBuf at hv
  split at hv
  · cases hv
  · cases hv
    refine ⟨h.withVfs (settled_freeBuf h.steady.vfs _) (Nat.le_refl _) fun b m hf hlt hun => ?_, rfl, rfl, rfl⟩
    refine hf.freeBuf fun he => ?_
    cases he
    rcases hc with hnew | ⟨u, hu, hown⟩
    · exact absurd hlt (Nat.not_lt.mpr hnew)
    · exact hun u hu hown

theorem Tidy.kfreeOpt (h : Tidy s s₁) {p : Option Nat}
    (hp : ∀ c, p = some c → s.kernel.vfs.nextObj ≤ c ∨ ∃ u ∈ s.kernel.tasks, c ∈ owned s u) :
    (s₁.kfreeOpt p).Ensures fun s₂ => Tidy s s₂ ∧ s₂.kernel.vfs.nextObj = s₁.kernel.vfs.nextObj ∧
      s₂.kernel.tasks = s₁.kernel.tasks ∧ s₂.body = s₁.body := by
  cases p with
  | none => exact .ret ⟨h, rfl, rfl, rfl⟩
  | some c => exact h.kfree (hp c rfl)

theorem Tidy.copyBytes (h : Tidy s s₁) (hc : s.kernel.vfs.nextObj ≤ c) {data : Option Nat} {n : Nat} {v : Vfs}
    (hv : s₁.kernel.vfs.copyBytes c data n = .ret v) : Tidy s (s₁.withVfs v) ∧ v.nextObj = s₁.kernel.vfs.nextObj := by
  have hnew : c < s₁.kernel.vfs.nextObj ∨ s₁.kernel.vfs.nextObj ≤ c := Nat.lt_or_ge _ _
  have hsettled : Settled v ∧ v.nextObj = s₁.kernel.vfs.nextObj := by
    rcases Vfs.copyBytes_ret hv with ⟨_, rfl⟩ | ⟨_, _, m, _, _, hm, rfl⟩
    · exact ⟨h.steady.vfs, rfl⟩
    · refine ⟨settled_of_buf h.steady.vfs fun x hx => ?_, rfl⟩
      have hxc : x ≠ c := by
        rintro rfl
        rw [(h.steady.vfs.fresh x hx).1] at hm
        cases hm
      rw [Function.update_of_ne hxc, (h.steady.vfs.fresh x hx).1]
  refine ⟨h.withVfs hsettled.1 (Nat.le_of_eq hsettled.2.symm) fun b m hf hlt _ => ?_, hsettled.2⟩
  exact hf.copyBytes (Nat.ne_of_gt (Nat.lt_of_lt_of_le hlt hc)) hv

/-- The descriptors are worked on, and the file system with them. -/
theorem Tidy.run (h : Tidy s s₁) (hk : Steady s₁.kernel k) (ht : Tracked s₁.kernel.vfs k) :
    Tidy s { s₁ with kernel := k } := by
  have htasks : k.tasks = s₁.kernel.tasks := hk.tasks
  refine ⟨hk.self, ht.kinds, Nat.le_trans h.supply hk.supply, fun u hu b hb => ?_, fun b m hf hun => ?_⟩
  · exact (h.heirs u (htasks ▸ hu) b hb).imp_left fun hnew => hnew.mono hk.supply
  · exact ((h.spares b m hf hun).vfsRun h.steady.vfs ht.run).1

/-- A task struct is stored. -/
theorem Tidy.setBody (h : Tidy s s₁) {body : Body} (hown : ∀ b ∈ owned (s₁.setBody t body) t,
    Since s.kernel.vfs s₁.kernel.vfs b ∨ ∃ w ∈ s.kernel.tasks, b ∈ owned s w) : Tidy s (s₁.setBody t body) := by
  refine ⟨h.steady, h.kinds, h.supply, fun u hu b hb => ?_, h.spares⟩
  by_cases hut : u = t
  · subst hut
    exact hown b hb
  · exact h.heirs u hu b (owned_setBody_of_ne hut ▸ hb)

/-- Some tasks are gone from the list, or have another parent. -/
theorem Tidy.retask (h : Tidy s s₁) (hvfs : k.vfs = s₁.kernel.vfs) (hfile : k.file = s₁.kernel.file)
    (hpipe : k.pipe = s₁.kernel.pipe) (hblock : k.block = s₁.kernel.block)
    (htasks : ∀ u ∈ k.tasks, u ∈ s₁.kernel.tasks) :
    Tidy s { s₁ with kernel := k } := by
  refine ⟨h.steady.retask hvfs hfile hpipe hblock, ?_, ?_, fun u hu b hb => ?_, fun b m hf hun => ?_⟩
  · show OneKinds k
    rw [OneKinds, hfile]
    exact h.kinds
  · show _ ≤ k.vfs.nextObj
    rw [hvfs]
    exact h.supply
  · have hnew := h.heirs u (htasks u hu) b hb
    show Since _ k.vfs b ∨ _
    rw [hvfs]
    exact hnew
  · show Nodeless k.vfs b m
    rw [hvfs]
    exact h.spares b m hf hun

/-- A task comes anew, with blocks that were taken since. -/
theorem Tidy.add (h : Tidy s s₁) {body : Body} (hk : Steady k k) (hkinds : OneKinds k)
    (hsup : s₁.kernel.vfs.nextObj ≤ k.vfs.nextObj) (htasks : k.tasks = t :: s₁.kernel.tasks)
    (hspares : ∀ b m, Nodeless s₁.kernel.vfs b m → Nodeless k.vfs b m)
    (hown : ∀ b ∈ owned ({ s₁ with kernel := k }.setBody t body) t, Since s.kernel.vfs s₁.kernel.vfs b) :
    Tidy s ({ s₁ with kernel := k }.setBody t body) := by
  refine ⟨hk, hkinds, Nat.le_trans h.supply hsup, fun u hu b hb => ?_, fun b m hf hun => hspares b m (h.spares b m hf hun)⟩
  by_cases hut : u = t
  · subst hut
    exact .inl ((hown b hb).mono hsup)
  · have hsame : owned ({ s₁ with kernel := k }.setBody t body) u = owned s₁ u := owned_setBody_of_ne hut
    have hu : u ∈ s₁.kernel.tasks := (List.mem_cons.mp (htasks ▸ hu)).resolve_left hut
    exact (h.heirs u hu b (hsame ▸ hb)).imp_left fun hnew => hnew.mono hsup

/-- A block that is neither of a file nor of a task. -/
structure Stray (s : State) (b : Nat) (m : Buf) : Prop where
  nodeless : Nodeless s.kernel.vfs b m
  unowned : ∀ u ∈ s.kernel.tasks, b ∉ owned s u

/-- Nobody gives it back. -/
theorem Tidy.stray (h : Tidy s s₁) (hb : Stray s b m) : Stray s₁ b m := by
  refine ⟨h.spares b m hb.nodeless hb.unowned, fun u hu hown => ?_⟩
  rcases h.heirs u hu b hown with hnew | ⟨w, hw, hold⟩
  · exact absurd hb.nodeless.below (Nat.not_lt.mpr hnew.1)
  · exact hb.unowned w hw hold

theorem Tidy.trans (h : Tidy s s₁) (h' : Tidy s₁ s₂) : Tidy s s₂ := by
  refine ⟨h'.steady, h'.kinds, Nat.le_trans h.supply h'.supply, fun u hu b hb => ?_, fun b m hf hun => ?_⟩
  · rcases h'.heirs u hu b hb with hnew | ⟨w, hw, hold⟩
    · exact .inl ⟨Nat.le_trans h.supply hnew.1, hnew.2⟩
    · exact (h.heirs w hw b hold).imp_left fun hnew => hnew.mono h'.supply
  · have hstray := h.stray ⟨hf, hun⟩
    exact h'.spares b m hstray.nodeless hstray.unowned

/-! ## The functions that make and end tasks -/

/-- The loop over the standard descriptors. -/
theorem openStds_kept {k₀ : Kernel} {v : Vfs} (hk : Steady k₀ k) (ht : Tracked v k) (stale : Fin maxFds → SockPtr)
    (l : List (Fin maxFds)) : (l.foldlM (openStd t stale) k).Ensures fun k' => Steady k₀ k' ∧ Tracked v k' := by
  refine Exec.Ensures.foldlM (fun _ k => Steady k₀ k ∧ Tracked v k) (fun i rest k ⟨hk, ht⟩ => ?_) ⟨hk, ht⟩
  intro k' hk'
  unfold openStd at hk'
  obtain ⟨⟨k₁, p⟩, hk₁, hk'⟩ := Exec.bind_eq_ret.mp hk'
  obtain ⟨hsteady, -, hp⟩ := hk.kmalloc _ _ hk₁
  have htracked := ht.kmalloc _ _ hk₁
  cases p with
  | none =>
      cases hk'
      exact ⟨hsteady, htracked⟩
  | some f =>
      cases hk'
      exact ⟨(hsteady.putFile .console (hp f rfl) Int.one_pos).rest rfl rfl rfl rfl rfl,
        (htracked.putFile f .console (.inl rfl)).rest rfl rfl⟩

/-- The loop over the descriptors of the parent. -/
theorem copyFds_kept {k₀ : Kernel} {v : Vfs} (hk : Steady k₀ k) (ht : Tracked v k) (l : List (Fin maxFds)) :
    (l.foldlM (copyFd t c) k).Ensures fun k' => Steady k₀ k' ∧ Tracked v k' := by
  refine Exec.Ensures.foldlM (fun _ k => Steady k₀ k ∧ Tracked v k) (fun i rest k ⟨hk, ht⟩ => ?_) ⟨hk, ht⟩
  have hslot : Steady k₀ (k.setFd c i (k.fd (t, i))) := hk.rest rfl rfl rfl rfl rfl
  have hslot' : Tracked v (k.setFd c i (k.fd (t, i))) := ht.rest rfl rfl
  unfold Files.copyFd
  split
  · exact .ret ⟨hslot, hslot'⟩
  · exact fun k' hk' => ⟨hslot.retainFile _ k' hk', hslot'.retainFile _ k' hk'⟩

/-- A task that was made has a heap of 1 MiB, if it has any, which is new and
which nobody gives back. -/
def Furnished (s s' : State) : Prop :=
  ∀ t, s'.kernel.tasks = t :: s.kernel.tasks → (s'.body t).heapStart ≠ 0 →
    ∃ b m, s.kernel.vfs.nextObj ≤ b ∧ Stray s' b m ∧ m.len = 0x100000

theorem Furnished.of_same (h : s₁.kernel.tasks = s.kernel.tasks) : Furnished s s₁ := fun _ ht =>
  absurd (h.symm.trans ht) List.ne_cons_self

theorem createUserTask_tidy (hs : Housed s) (hkinds : OneKinds s.kernel) (stale : Fin maxFds → SockPtr) :
    (createUserTask s stale).Ensures fun s' => Tidy s s' ∧ Furnished s s' := by
  unfold Tasks.createUserTask
  refine .bind ((hs.refl hkinds).kmallocBuf _) fun ⟨s₁, p⟩ ⟨h₁, hle₁, htasks₁, hbody₁, hstack⟩ => ?_
  refine .bind (h₁.kmallocBuf _) fun ⟨s₂, q⟩ ⟨h₂, hle₂, htasks₂, hbody₂, hustack⟩ => ?_
  have hsame₂ : s₂.kernel.tasks = s.kernel.tasks := htasks₂.trans htasks₁
  have hfail : (s₂.kfreeOpt p >>= fun s => s.kfreeOpt q).Ensures fun s' => Tidy s s' ∧ Furnished s s' :=
    .bind (h₂.kfreeOpt fun b hb => .inl (hstack b hb).1) fun s₃ ⟨h₃, _, htasks₃, _⟩ =>
      (h₃.kfreeOpt fun b hb => .inl (hustack b hb).1).mono fun s₄ ⟨h₄, _, htasks₄, _⟩ =>
        ⟨h₄, .of_same (htasks₄.trans (htasks₃.trans hsame₂))⟩
  cases p with
  | none => exact hfail
  | some stack =>
      cases q with
      | none => exact hfail
      | some ustack =>
          refine .bind (h₂.kmallocBuf _) fun ⟨s₃, r⟩ ⟨h₃, hle₃, htasks₃, hbody₃, htask⟩ => ?_
          have hsame₃ : s₃.kernel.tasks = s.kernel.tasks := htasks₃.trans hsame₂
          have hstack₃ := ((hstack stack rfl).mono hle₂).mono hle₃
          have hustack₃ := (hustack ustack rfl).mono hle₃
          cases r with
          | none =>
              exact .bind (h₃.kfree (.inl hstack₃.1)) fun s₄ ⟨h₄, _, htasks₄, _⟩ =>
                (h₄.kfree (.inl hustack₃.1)).mono fun s₅ ⟨h₅, _, htasks₅, _⟩ =>
                  ⟨h₅, .of_same (htasks₅.trans (htasks₄.trans hsame₃))⟩
          | some t =>
              have hnew : Steady (addOwner s₃.kernel t ⟨s₃.kernel.nextPid, 0, false⟩)
                  (addOwner s₃.kernel t ⟨s₃.kernel.nextPid, 0, false⟩) := h₃.steady.retask rfl rfl rfl rfl
              have htracked : Tracked s₃.kernel.vfs (addOwner s₃.kernel t ⟨s₃.kernel.nextPid, 0, false⟩) :=
                ⟨.refl, h₃.kinds⟩
              refine .bind (openStds_kept hnew htracked stale _) fun k ⟨hk, hkt⟩ => ?_
              have hktasks : k.tasks = t :: s₃.kernel.tasks := hk.tasks
              intro s' hs'
              obtain ⟨⟨s₄, heap⟩, hheap, hs'⟩ := Exec.bind_eq_ret.mp hs'
              obtain ⟨⟨v, heap⟩, hv, hheap⟩ := Exec.bind_eq_ret.mp hheap
              cases hheap
              cases hs'
              obtain ⟨hlater, hle, hp⟩ := (Later.refl hk.vfs).kmallocBuf hv
              have hown : ∀ b body, body.stackBase = stack → body.userStackBase = some ustack → body.imgSnapshot = none →
                  b ∈ owned (({ s₃ with kernel := { k with vfs := v } } : State).setBody t body) t →
                  Since s.kernel.vfs s₃.kernel.vfs b := by
                intro b body hb₁ hb₂ hb₃ hb
                rw [owned, State.setBody_self, hb₁, hb₂, hb₃] at hb
                simp only [Option.toList_some, Option.toList_none, List.append_nil, List.mem_cons, List.not_mem_nil,
                  or_false] at hb
                rcases hb with rfl | rfl | rfl
                · exact htask b rfl
                · exact hstack₃
                · exact hustack₃
              have htidy : Tidy s (({ s₃ with kernel := { k with vfs := v } } : State).setBody t
                  { stackBase := stack
                    heapStart := addrOf { s₃ with kernel := { k with vfs := v } } heap
                    heapEnd := u32 (addrOf { s₃ with kernel := { k with vfs := v } } heap + 0x100000)
                    userStackBase := some ustack
                    userStackTop := u32 (s₃.place.addr ustack + 4096) / 16 * 16
                    imgSize := 0, imgSnapshot := none, comm := str "init", cmdline := [] }) := by
                refine h₃.add (hk.withVfs hlater.settled hlater.supply).self hkt.kinds
                  (Nat.le_trans hk.supply hle) hktasks (fun b m hf => ?_) fun b hb => ?_
                · exact (((hf.vfsRun h₃.steady.vfs hkt.run).1).kmallocBuf hv).1
                · exact hown b _ rfl rfl rfl hb
              refine ⟨htidy, fun t' ht' hstart => ?_⟩
              obtain rfl : t = t' := by
                have hcons : t :: s₃.kernel.tasks = t' :: s.kernel.tasks := hktasks.symm.trans ht'
                exact (List.cons.inj hcons).1
              rw [State.setBody_self] at hstart
              cases heap with
              | none => exact absurd rfl hstart
              | some b =>
                  obtain ⟨rfl, hlt⟩ := hp b rfl
                  have hge : s₃.kernel.vfs.nextObj ≤ k.vfs.nextObj := hk.supply
                  rcases Vfs.kmallocBuf_ret hv with ⟨hnone, -⟩ | ⟨-, rfl⟩
                  · cases hnone
                  refine ⟨k.vfs.nextObj, _, Nat.le_trans h₃.supply hge, ⟨⟨Function.update_self .., hlt, ?_⟩, ?_⟩, rfl⟩
                  · exact fun a n hn hd => absurd (hk.vfs.texts.below a n _ hn hd) (Nat.lt_irrefl _)
                  · intro u hu hb
                    have hu : u ∈ t :: s₃.kernel.tasks := hktasks ▸ hu
                    by_cases hut : u = t
                    · subst hut
                      exact absurd (hown _ _ rfl rfl rfl hb).2 (Nat.not_lt.mpr hge)
                    · have hold := (List.mem_cons.mp hu).resolve_left hut
                      rw [owned_setBody_of_ne hut] at hb
                      exact absurd ((h₃.housed hs).below u hold _ hb) (Nat.not_lt.mpr hge)

theorem Tidy.copyUserStack (h : Tidy s s₁) (body : Body) : (copyUserStack s₁ body).Ensures fun r =>
    Tidy s r.1 ∧ s₁.kernel.vfs.nextObj ≤ r.1.kernel.vfs.nextObj ∧ r.1.kernel.tasks = s₁.kernel.tasks ∧
      r.1.body = s₁.body ∧
        ∀ b, r.2 = some b → ∀ base, b.userStackBase = some base → Since s.kernel.vfs r.1.kernel.vfs base := by
  unfold Tasks.copyUserStack
  split
  · rename_i hnone
    refine .ret ⟨h, Nat.le_refl _, rfl, rfl, fun b hb base hbase => ?_⟩
    cases hb
    rw [hnone] at hbase
    cases hbase
  · rename_i base _
    refine .bind (h.kmallocBuf _) fun ⟨s₂, p⟩ ⟨h₂, hle, htasks, hbody, hp⟩ => ?_
    cases p with
    | none => exact .ret ⟨h₂, hle, htasks, hbody, fun b hb => by cases hb⟩
    | some new =>
        obtain ⟨hnew, hlt⟩ := hp new rfl
        refine .bind (P := fun v => s₂.kernel.vfs.copyBytes new (some base) (stackSize s₁ body base) = .ret v)
          (fun _ hv => hv) fun v hv => .ret ?_
        obtain ⟨h₃, hsame⟩ := h₂.copyBytes hnew hv
        refine ⟨h₃, hsame ▸ hle, htasks, hbody, fun b hb c hc => ?_⟩
        cases hb
        cases hc
        exact ⟨hnew, hsame ▸ hlt⟩

theorem forkTask_tidy (hs : Housed s) (hkinds : OneKinds s.kernel) (t : Nat) :
    (forkTask s t).Ensures fun r => Tidy s r.1 := by
  unfold Tasks.forkTask
  refine .bind ((hs.refl hkinds).kmallocBuf _) fun ⟨s₁, p⟩ ⟨h₁, _, _, _, hstack⟩ => ?_
  cases p with
  | none => exact .ret h₁
  | some stack =>
      refine .bind (P := fun v => s₁.kernel.vfs.copyBytes stack (some (s.body t).stackBase) 4096 = .ret v)
        (fun _ hv => hv) fun v hcopy => ?_
      obtain ⟨h₂, hsame⟩ := h₁.copyBytes (hstack stack rfl).1 hcopy
      have hstack₂ : Since s.kernel.vfs v stack := (hstack stack rfl).mono (Nat.le_of_eq hsame.symm)
      refine .bind (h₂.kmallocBuf _) fun ⟨s₃, q⟩ ⟨h₃, hle₃, _, _, hchild⟩ => ?_
      cases q with
      | none => exact .bind (h₃.kfree (.inl hstack₂.1)) fun s₄ ⟨h₄, _⟩ => .ret h₄
      | some child =>
          refine .bind (h₃.copyUserStack _) fun ⟨s₄, copied⟩ ⟨h₄, hle₄, _, _, hbase⟩ => ?_
          cases copied with
          | none =>
              refine .bind (h₄.kfree (.inl hstack₂.1)) fun s₅ ⟨h₅, _⟩ => ?_
              refine .bind (h₅.kfree (.inl (hchild child rfl).1)) fun s₆ ⟨h₆, _⟩ => .ret ?_
              exact h₆.retask rfl rfl rfl rfl fun _ hu => hu
          | some body =>
              have hnew : Steady (addOwner s₄.kernel child ⟨s₃.kernel.nextPid, (s₄.kernel.owner t).pid, false⟩)
                  (addOwner s₄.kernel child ⟨s₃.kernel.nextPid, (s₄.kernel.owner t).pid, false⟩) :=
                h₄.steady.retask rfl rfl rfl rfl
              have htracked : Tracked s₄.kernel.vfs
                  (addOwner s₄.kernel child ⟨s₃.kernel.nextPid, (s₄.kernel.owner t).pid, false⟩) := ⟨.refl, h₄.kinds⟩
              refine .bind (copyFds_kept hnew htracked _) fun k ⟨hk, hkt⟩ => .ret ?_
              refine h₄.add hk.self hkt.kinds hk.supply hk.tasks (fun b m hf => (hf.vfsRun h₄.steady.vfs hkt.run).1)
                fun b hb => ?_
              rw [owned, State.setBody_self] at hb
              simp only [Option.toList_none, List.append_nil, List.mem_cons, Option.mem_toList] at hb
              rcases hb with rfl | rfl | hb
              · exact (hchild b rfl).mono hle₄
              · exact (hstack₂.mono hle₃).mono hle₄
              · exact hbase body rfl b hb

theorem taskExit_tidy (hs : Housed s) (hkinds : OneKinds s.kernel) (ht : t ∈ s.kernel.tasks) :
    (taskExit s t).Ensures fun s' => Tidy s s' ∧ s'.kernel.tasks = s.kernel.tasks := by
  unfold Tasks.taskExit
  refine .bind ((hs.refl hkinds).kfreeOpt fun c hc => .inr ⟨t, ht, by simp [owned, hc]⟩)
    fun s₁ ⟨h₁, hsup, htasks, hbody⟩ => ?_
  have h₂ : Tidy s (s₁.setBody t { s₁.body t with imgSnapshot := none }) := by
    refine h₁.setBody fun b hb => .inr ⟨t, ht, ?_⟩
    rw [owned, State.setBody_self, hbody] at hb
    simp only [Option.toList_none, List.append_nil] at hb
    rw [owned]
    simp only [List.mem_cons, List.mem_append] at hb ⊢
    exact hb.imp_right (Or.imp_right .inl)
  have hexit : (Files.taskExit s₁.kernel t).Ensures (Steady s₁.kernel) := by
    unfold Files.taskExit
    exact Exec.Ensures.foldlM (fun _ => Steady s₁.kernel) (fun i rest k hk => hk.releaseFd i)
      (h₁.steady.rest rfl rfl rfl rfl rfl)
  have htracked : (Files.taskExit s₁.kernel t).Ensures (Tracked s₁.kernel.vfs) :=
    Tracked.taskExit ⟨.refl, h₁.kinds⟩ t
  intro s' hs'
  obtain ⟨k, hk, hs'⟩ := Exec.bind_eq_ret.mp hs'
  cases hs'
  have hsteady := hexit k hk
  exact ⟨h₂.run hsteady (htracked k hk), hsteady.tasks.trans htasks⟩

theorem sysExit_tidy (hs : Housed s) (hkinds : OneKinds s.kernel) (ht : t ∈ s.kernel.tasks)
    (stale : Fin maxFds → SockPtr) : (sysExit s t stale).Ensures fun s' => Tidy s s' ∧ Furnished s s' := by
  refine .bind (taskExit_tidy hs hkinds ht) fun s₁ ⟨h₁, htasks⟩ => ?_
  split
  · refine (createUserTask_tidy (h₁.housed hs) h₁.kinds stale).mono fun s₂ ⟨h₂, hheap⟩ => ⟨h₁.trans h₂, ?_⟩
    intro t' ht' hstart
    obtain ⟨b, m, hge, hb⟩ := hheap t' (htasks ▸ ht') hstart
    exact ⟨b, m, Nat.le_trans h₁.supply hge, hb⟩
  · exact .ret ⟨h₁, .of_same htasks⟩

theorem sysKill_tidy (hs : Housed s) (hkinds : OneKinds s.kernel) (ht : t ∈ s.kernel.tasks) (target : Nat) :
    (sysKill s t target).Ensures (Tidy s) := by
  unfold Tasks.sysKill
  split
  · exact (taskExit_tidy hs hkinds ht).mono fun _ h => h.1
  · rename_i hne
    unfold Files.sysKill
    rw [if_neg hne]
    exact .ret ((hs.refl hkinds).retask rfl rfl rfl rfl fun _ hu => hu)

theorem wait4_tidy (hs : Housed s) (hkinds : OneKinds s.kernel) (t c : Nat) : (wait4 s t c).Ensures (Tidy s) := by
  unfold Tasks.wait4
  split
  · rename_i hcond
    have hc := hcond.1
    rw [Files.wait4, if_pos hcond, Exec.ret_bind]
    have h₁ : Tidy s { s with kernel := { s.kernel with tasks := s.kernel.tasks.erase c } } :=
      (hs.refl hkinds).retask rfl rfl rfl rfl fun u hu => List.mem_of_mem_erase hu
    refine .bind (h₁.kfreeOpt fun b hb => .inr ⟨c, hc, by simp [owned, hb]⟩) fun s₂ ⟨h₂, _⟩ => ?_
    refine .bind (h₂.kfree (.inr ⟨c, hc, by simp [owned]⟩)) fun s₃ ⟨h₃, _⟩ => ?_
    refine .bind (h₃.kfreeOpt fun b hb => .inr ⟨c, hc, ?_⟩) fun s₄ ⟨h₄, _⟩ => ?_
    · split at hb
      · cases hb
      · simp [owned, hb]
    · exact (h₄.kfree (.inr ⟨c, hc, by simp [owned]⟩)).mono fun _ h₅ => h₅.1
  · exact .ret (hs.refl hkinds)

/-- Blocks come and go above a block that is not a file's. -/
theorem Nodeless.restored {v w : Vfs} {l : List Nat} (h : Nodeless v b m) (hr : Execve.Restored v w l) : Nodeless w b m := by
  obtain ⟨hhold, hsame, n, k, hn, -, hk⟩ := hr
  refine ⟨(hhold.old b h.below).trans h.held, Nat.lt_of_lt_of_le h.below hhold.supply, fun a n' hn' => ?_⟩
  by_cases ha : a = rootAddr
  · subst ha
    rw [hk, Option.some.injEq] at hn'
    subst hn'
    exact h.apart rootAddr n hn
  · rw [hsame a ha] at hn'
    exact h.apart a n' hn'

theorem sysExecve_tidy (hs : Housed s) (hkinds : OneKinds s.kernel) (ht : t ∈ s.kernel.tasks) (p : Program) :
    (sysExecve s t p).Ensures fun r => Tidy s r.1 := by
  have htask : (execState s t p).task = some ((s.body t).task (s.kernel.owner t).ppid) := rfl
  refine .bind (P := fun q => Execve.sysExecveImpl (execState s t p) p.path p.argv p.envp = .ret q)
    (fun _ hq => hq) fun q he => .ret ?_
  obtain ⟨e, r⟩ := q
  have hgone (w : Vfs) (hr : Execve.Restored s.kernel.vfs w []) : Tidy s ((s.withVfs w).setBody t (s.body t)) := by
    have hlater := later_of_restored hs.steady.vfs hr
    refine ((hs.refl hkinds).withVfs hlater.settled hlater.supply fun b m hf _ _ => Nodeless.restored hf hr).setBody
      fun b hb => .inr ⟨t, ht, ?_⟩
    rw [owned, State.setBody_self] at hb
    exact hb
  rcases Execve.sysExecveImpl_spec hs.steady.vfs htask he with
    ⟨-, hun⟩ | ⟨args, envs, -, -, ⟨-, hun⟩ | ⟨-, w, stack, snap, hst⟩⟩
  · rw [hun.same]
    exact hgone e.vfs hun.restored
  · rw [hun.same]
    exact hgone e.vfs hun.restored
  · have hlater := later_of_restored hs.steady.vfs hst.restored
    obtain ⟨hsettled, hsup⟩ := settled_dropOldStack hlater.settled hst.old
    have hle : s.kernel.vfs.nextObj ≤ e.vfs.nextObj := hsup.symm ▸ hlater.supply
    obtain ⟨n, htask'⟩ := hst.task
    dsimp only
    rw [htask']
    have hsince : ∀ b ∈ stack :: snap.toList, Since s.kernel.vfs e.vfs b := fun b hb => by
      obtain ⟨hge, hlt⟩ := hst.restored.1.fresh b hb
      exact ⟨hge, hsup.symm ▸ hlt⟩
    refine ((hs.refl hkinds).withVfs hsettled hle fun b m hf _ hun => ?_).setBody fun b hb => ?_
    · -- only the old stack of the task is given back
      have hdrop := hst.old
      unfold Execve.dropOldStack at hdrop
      split at hdrop
      · cases hdrop
        exact Nodeless.restored hf hst.restored
      · rename_i old hold
        split at hdrop
        · cases hdrop
          exact Nodeless.restored hf hst.restored
        · unfold Execve.kfreeBuf at hdrop
          split at hdrop
          · cases hdrop
          · have hv : w.freeBuf (some old) = e.vfs := Exec.ret.inj hdrop
            show Nodeless e.vfs b m
            rw [← hv]
            refine (Nodeless.restored hf hst.restored).freeBuf fun he => ?_
            cases he
            have hold : (s.body t).userStackBase = some b := hold
            exact hun t ht (by simp [owned, hold])
    · rw [owned, State.setBody_self] at hb
      simp only [Body.store, List.mem_cons, List.mem_append, Option.mem_toList] at hb
      rcases hb with rfl | rfl | hb | hb
      · exact .inr ⟨b, ht, List.mem_cons_self⟩
      · exact .inr ⟨t, ht, by simp [owned]⟩
      · cases hb
        exact .inl (hsince stack List.mem_cons_self)
      · have hb : (snap <|> (s.body t).imgSnapshot) = some b := hb
        cases snap with
        | none => exact .inr ⟨t, ht, by simp [owned, show (s.body t).imgSnapshot = some b from hb]⟩
        | some c =>
            cases hb
            exact .inl (hsince b (by simp))

/-! ## The events -/

/-- Does the event leave alone what is not the caller's? -/
def keepsBlocks : TaskEvent → Bool
  | .munmap .. => false
  | _ => true

/-- Every event but `munmap`. -/
theorem Tidy.of_step {e : TaskEvent} (hs : Housed s) (hkinds : OneKinds s.kernel)
    (hactor : ∀ t, e.actor = some t → t ∈ s.kernel.tasks) (he : keepsBlocks e = true) : (e.run s).Ensures (Tidy s) := by
  cases e with
  | files e =>
      show (if aboutTasks e = true then Exec.ret s else do
        let k ← e.run s.kernel
        .ret { s with kernel := k }).Ensures (Tidy s)
      split
      · exact .ret (hs.refl hkinds)
      · rename_i habout
        intro s' hs'
        obtain ⟨k, hk, hs'⟩ := Exec.bind_eq_ret.mp hs'
        cases hs'
        have htracked : Tracked s.kernel.vfs s.kernel := ⟨.refl, hkinds⟩
        exact (hs.refl hkinds).run (hs.steady.run habout k hk) (htracked.event e k hk)
  | spawn stale => exact (createUserTask_tidy hs hkinds stale).mono fun _ h => h.1
  | fork t => exact .bind (forkTask_tidy hs hkinds t) fun _ h => .ret h
  | execve t p => exact .bind (sysExecve_tidy hs hkinds (hactor t rfl) p) fun _ h => .ret h
  | exit t stale => exact (sysExit_tidy hs hkinds (hactor t rfl) stale).mono fun _ h => h.1
  | kill t target => exact sysKill_tidy hs hkinds (hactor t rfl) target
  | wait t c => exact wait4_tidy hs hkinds t c
  | mmap t length => exact .bind ((hs.refl hkinds).kmallocBuf length) fun _ h => .ret h.1
  | munmap t b => cases he

/-- The runs that start without a task and without a pipe. -/
def pipelessTasks : System State TaskEvent where
  init := fun s => KernelBoot s.kernel ∧ ∀ p, s.kernel.pipe p = none
  step := taskSystem.step

theorem Housed.of_reach (h : pipelessTasks.Reach s) : Housed s ∧ OneKinds s.kernel := by
  refine System.ReachVia.invariant (I := fun s => Housed s ∧ OneKinds s.kernel) ?_ ?_ h
  · rintro s ⟨hb, hpipe⟩
    refine ⟨⟨.of_reach (.init ⟨hb, hpipe⟩), fun u hu => ?_⟩, fun f x hf => ?_⟩
    · rw [hb.tasks] at hu
      cases hu
    · rw [hb.file] at hf
      cases hf
  · rintro s e s' ⟨hs, hkinds⟩ - ⟨hactor, hrun⟩
    by_cases he : keepsBlocks e = true
    · have htidy := Tidy.of_step hs hkinds hactor he s' hrun
      exact ⟨htidy.housed hs, htidy.kinds⟩
    · cases e with
      | munmap t b =>
          obtain ⟨v, hv, hrun⟩ := Exec.bind_eq_ret.mp hrun
          cases hrun
          unfold Execve.kfreeBuf at hv
          split at hv
          · cases hv
          · cases hv
            exact ⟨⟨(hs.steady.withVfs (settled_freeBuf hs.steady.vfs (some b)) (Nat.le_refl _)).self, hs.below⟩, hkinds⟩
      | _ => exact absurd rfl he

end Tidy

end LiteBSD.Tasks
