/-
# `LiteBSD.Execve.Snapshot` — the size that `execve` records, and the block it is the size of

`img_size` is written twice.  With the snapshot of the parent it is the number
of bytes that were allocated; at the end of the same call it becomes
`clear_end`, the size of the image that was loaded.  The first is what
`task_exit` reads it for.
-/
import LiteBSD.Execve.Window

namespace LiteBSD.Execve

/-- The end of the segments of a file, from the entry `i` on. -/
def endLoop (v : Vfs) (source : Caller × CStr) (h : Header) : Nat → Nat → Nat → Option Nat
  | 0, _, clearEnd => some clearEnd
  | rounds + 1, i, clearEnd =>
      match fileRead v source.1 source.2 (u32 (h.phoff + i * h.phentsize)) 32 with
      | none => none
      | some (ph, ret) =>
          if ret ≠ 32 then none
          else if (segmentOf ph).ptype ≠ elfPtLoad then endLoop v source h rounds (i + 1) clearEnd
          else endLoop v source h rounds (i + 1) (furthest clearEnd (segmentOf ph))

/-- The size of the image that a file has the headers of. -/
def imageEnd (v : Vfs) (source : Caller × CStr) : Option Nat :=
  match fileRead v source.1 source.2 0 52 with
  | none => none
  | some (header, ret) =>
      if ret ≠ 52 then none
      else (endLoop v source (headerOf header) (headerOf header).phnum 0 0).map (min · 0x400000)

/-- The size of the snapshot that the task has, or takes in this call. -/
def snapshotSize (s : State) : Option Nat :=
  match s.task with
  | none => none
  | some t =>
      match t.imgSnapshot with
      | some b => (s.vfs.buf b).map Buf.len
      | none =>
          match s.parent with
          | none => none
          | some p => if t.ppid ≠ 0 ∧ p.imgSize > 0 ∧ p.imgSize ≤ 0x400000 then some p.imgSize else none

section Blocks

variable {w w' : Vfs} {b c : Nat} {entries : List KString}

theorem kfreeBuf_buf (h : kfreeBuf w b = .ret w') (hne : c ≠ b) : w'.buf c = w.buf c := by
  unfold kfreeBuf at h
  split at h
  · cases h
  · cases h
    exact Function.update_of_ne hne _ _

theorem execFreeVec_buf (h : execFreeVec w entries = .ret w') (hc : c ∉ bufs entries) : w'.buf c = w.buf c := by
  induction entries generalizing w with
  | nil =>
      cases h
      rfl
  | cons k entries ih =>
      obtain ⟨x, hx, h⟩ := Exec.bind_eq_ret.mp h
      rw [bufs, List.map_cons, List.mem_cons, not_or] at hc
      rw [ih h hc.2, kfreeBuf_buf hx hc.1]

end Blocks

section Entering

variable {s s' : State} {t : Task} {stack entry clearEnd c : Nat} {path : CStr} {argv envv : Vec} {r : Int}

/-- The end of `execve` changes the new stack, and frees the buffers and the old one. -/
theorem enterImage_buf (he : enterImage s stack entry clearEnd path argv envv = .ret (s', r)) (hstack : c ≠ stack)
    (hargv : c ∉ bufs argv.entries) (henvv : c ∉ bufs envv.entries)
    (hold : ∀ t, s.task = some t → t.userStackBase ≠ some c) : s'.vfs.buf c = s.vfs.buf c := by
  obtain ⟨_, _, he⟩ := Exec.bind_eq_ret.mp he
  obtain ⟨_, _, he⟩ := Exec.bind_eq_ret.mp he
  obtain ⟨_, _, he⟩ := Exec.bind_eq_ret.mp he
  obtain ⟨pushed, _, he⟩ := Exec.bind_eq_ret.mp he
  obtain ⟨x, hx, he⟩ := Exec.bind_eq_ret.mp he
  obtain ⟨y, hy, hx⟩ := Exec.bind_eq_ret.mp hx
  have hfreed : x.buf c = s.vfs.buf c := (execFreeVec_buf hx henvv).trans (execFreeVec_buf hy hargv)
  split at he
  · obtain ⟨z, hz, he⟩ := Exec.bind_eq_ret.mp he
    cases he
    exact (kfreeBuf_buf hz hstack).trans hfreed
  · obtain ⟨m, _, he⟩ := Exec.bind_eq_ret.mp he
    have hset : (x.setBuf stack m).buf c = s.vfs.buf c := (Function.update_of_ne hstack _ _).trans hfreed
    split at he
    · obtain ⟨z, hz, he⟩ := Exec.bind_eq_ret.mp he
      cases he
      exact (kfreeBuf_buf hz hstack).trans hset
    · rename_i t ht
      obtain ⟨z, hz, he⟩ := Exec.bind_eq_ret.mp he
      cases he
      exact (dropOldStack_buf hz (hold t ht)).trans hset

theorem enterImage_task (he : enterImage s stack entry clearEnd path argv envv = .ret (s', 0)) (ht : s.task = some t) :
    ∃ t', s'.task = some t' ∧ t'.imgSnapshot = t.imgSnapshot := by
  obtain ⟨_, _, he⟩ := Exec.bind_eq_ret.mp he
  obtain ⟨_, _, he⟩ := Exec.bind_eq_ret.mp he
  obtain ⟨_, _, he⟩ := Exec.bind_eq_ret.mp he
  obtain ⟨pushed, _, he⟩ := Exec.bind_eq_ret.mp he
  obtain ⟨_, _, he⟩ := Exec.bind_eq_ret.mp he
  split at he
  · obtain ⟨_, _, he⟩ := Exec.bind_eq_ret.mp he
    cases he
  · obtain ⟨_, _, he⟩ := Exec.bind_eq_ret.mp he
    rw [ht] at he
    obtain ⟨_, _, he⟩ := Exec.bind_eq_ret.mp he
    cases he
    exact ⟨_, rfl, rfl⟩

end Entering

section Headers

variable {v : Vfs} {s₁ s₀ : State} {node clearEnd : Nat} {h : Header}

theorem endLoop_of_scanLoop {source : Caller × CStr} (hs : Shows v s₁.vfs node source) {rounds i c last : Nat}
    (hscan : scanLoop s₁.vfs node h rounds i c = .ret (some last)) : endLoop v source h rounds i c = some last := by
  induction rounds generalizing i c with
  | zero =>
      cases hscan
      rfl
  | succ rounds ih =>
      obtain ⟨found, hseg, hscan⟩ := Exec.bind_eq_ret.mp hscan
      obtain ⟨⟨ph, ret⟩, hph, hseg⟩ := Exec.bind_eq_ret.mp hseg
      dsimp only at hseg
      split at hseg
      · cases hseg
        cases hscan
      · rename_i hall
        cases hseg
        simp only [endLoop, hs _ 32 _ hph, if_neg hall]
        dsimp only at hscan
        split at hscan
        · rename_i hskip
          rw [if_pos hskip]
          exact ih hscan
        · rename_i hload
          rw [if_neg hload]
          exact ih hscan

/-- The headers that pass the checks are those of the file. -/
theorem imageEnd_of_checks {source : Caller × CStr} (hs : Shows v s₁.vfs node source)
    (hc : PassesChecks s₁ node s₀ h clearEnd) : imageEnd v source = some clearEnd := by
  obtain ⟨header, last, hread, rfl, hscan, rfl, -, -⟩ := hc
  simp only [imageEnd, hs 0 52 _ hread, endLoop_of_scanLoop hs hscan, ne_eq, not_true_eq_false, if_false,
    Option.map_some]

end Headers

section Call

variable {s s' : State} {t : Task} {path argvU envpU : Nat}

/-- A program that was started: the size that is recorded is that of its image;
the snapshot is the one that was there, or a new one with as many bytes as the
image of the parent had. -/
theorem execve_snapshot (hv : Settled s.vfs) (ht : s.task = some t)
    (hold : ∀ b, t.userStackBase = some b → b < s.vfs.nextObj)
    (he : sysExecveImpl s path argvU envpU = .ret (s', 0)) :
    ∃ t' clearEnd, s'.task = some t' ∧ imageEnd s.vfs (imageSource s path) = some clearEnd ∧ t'.imgSize = clearEnd ∧
      (t'.imgSnapshot = t.imgSnapshot ∨
        t.imgSnapshot = none ∧ ∃ b n, t'.imgSnapshot = some b ∧ s.vfs.nextObj ≤ b ∧
          (s'.vfs.buf b).map Buf.len = some n ∧ snapshotSize s = some n) := by
  obtain ⟨s₁, node, stack, script, envv, hl⟩ := startsLoading_of_success he
  obtain ⟨s₀, h, clearEnd, hc⟩ := checks_of_success hl he
  obtain ⟨_, _, _, t', ht', hsize⟩ := loading_of_success hl hc he
  obtain ⟨d, args, envs, hstage, _, _, ht₁, _, hshows⟩ := hl.stage hv
  refine ⟨t', clearEnd, ht', imageEnd_of_checks hshows hc, hsize, ?_⟩
  obtain ⟨header, last, hread, rfl, hscan, rfl, hne, hsnap⟩ := hc
  rw [hl.call, loadImage, hread, Exec.ret_bind] at he
  dsimp only at he
  rw [if_neg (by decide), hscan, Exec.ret_bind] at he
  dsimp only at he
  rw [if_neg hne, hsnap, Exec.ret_bind] at he
  obtain ⟨mem, _, he⟩ := Exec.bind_eq_ret.mp he
  obtain ⟨⟨mem', ok⟩, _, he⟩ := Exec.bind_eq_ret.mp he
  dsimp only at he
  cases ok with
  | false => exact absurd he not_abandon
  | true =>
      obtain ⟨v, hclose, he⟩ := Exec.bind_eq_ret.mp he
      have hparent : s₁.parent = s.parent := by
        obtain ⟨_, _, _, _, _, _, _, _, _, _, _, _, rfl⟩ := hl
        rfl
      have hkept : s₀.task = some t → t'.imgSnapshot = t.imgSnapshot := fun ht₀ => by
        obtain ⟨t'', ht'', himg⟩ := enterImage_task he ht₀
        rw [ht', Option.some.injEq] at ht''
        rw [ht'', himg]
      unfold takeSnapshot at hsnap
      rw [ht₁, ht, hparent] at hsnap
      cases hp : s.parent with
      | none =>
          rw [hp] at hsnap
          cases hsnap
          exact .inl (hkept (ht₁.trans ht))
      | some p =>
          rw [hp] at hsnap
          dsimp only at hsnap
          split at hsnap
          · rename_i hnew
            obtain ⟨⟨x, q⟩, hx, hsnap⟩ := Exec.bind_eq_ret.mp hsnap
            obtain ⟨_, hq⟩ := hstage.take hx
            cases q with
            | none =>
                cases hsnap
                exact .inl (hkept rfl)
            | some b =>
                cases hsnap
                obtain ⟨hstage₀, m, hm, hlen, _⟩ := hq
                rw [State.bytes, List.length_map, List.length_range] at hlen
                obtain ⟨hshut, hmore⟩ := hstage₀.closeNode hclose
                obtain ⟨t'', ht'', himg⟩ := enterImage_task he rfl
                rw [ht', Option.some.injEq] at ht''
                subst ht''
                have hbmem : b ∈ [stack] ++ [b] := by simp
                have hnodup := hshut.holding.nodup
                have hfresh := (hshut.holding.fresh b (by simp)).1
                have hb : s'.vfs.buf b = v.buf b := by
                  have hrest := (List.nodup_append.mp hnodup).2.1
                  have hlast := (List.nodup_append.mp hrest).2.1
                  refine enterImage_buf he ?_ ?_ ?_ ?_
                  · rintro rfl
                    simp at hlast
                  · exact fun hb => List.disjoint_of_nodup_append hnodup hb (by simp)
                  · exact fun hb => List.disjoint_of_nodup_append hrest hb (by simp)
                  · rintro t₀ ht₀ hbase
                    cases ht₀
                    exact absurd (hold b hbase) (Nat.not_lt.mpr hfresh)
                refine .inr ⟨hnew.2.1, b, p.imgSize, himg, hfresh, ?_, ?_⟩
                · rw [hb, hmore b hbmem, hm, Option.map_some, hlen]
                · rw [snapshotSize, ht]
                  dsimp only
                  rw [hnew.2.1, hp]
                  dsimp only
                  rw [if_pos ⟨hnew.1, hnew.2.2⟩]
          · cases hsnap
            exact .inl (hkept (ht₁.trans ht))

end Call

end LiteBSD.Execve
