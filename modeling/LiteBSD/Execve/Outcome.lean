/-
# `LiteBSD.Execve.Outcome` — `execve` fails with everything as before, or starts a program

`sys_execve_impl` has over a dozen ends.  Those before the image is cleared
give back what they hold; the two after it are never taken, as the second look
at the program headers finds what the first one found, and the budget leaves
room for the table (`stack_decodes`).  So there are two outcomes: `Unchanged`
with `-1`, and `Started` with `0`.
-/
import LiteBSD.Execve.Scripts

namespace LiteBSD.Execve

/-! ## The two outcomes -/

/-- Only the file system has been used, which was `v` before the call, and
all of it was given back. -/
structure Unchanged (v : Vfs) (s s' : State) : Prop where
  same : s' = { s with vfs := s'.vfs }
  restored : Restored v s'.vfs []

/-- The task `t` runs a new program: `stack` is its stack, `snap` the copy of
the image of its parent, when one was taken, and `w` is the file system before
the stack of the old program goes. -/
structure Started (v : Vfs) (s s' : State) (t : Task) (w : Vfs) (stack : Nat) (snap : Option Nat) (path : CStr)
    (args envs : List CStr) : Prop where
  restored : Restored v w (stack :: snap.toList)
  old : dropOldStack w t s.parent = .ret s'.vfs
  snapshot : snap ≠ none → t.imgSnapshot = none
  task : ∃ n, s'.task = some { t with
    imgSize := n
    imgSnapshot := snap <|> t.imgSnapshot
    comm := commOf path
    cmdline := cmdlineOf (args.map withNul)
    userStackBase := some stack
    userStackTop := stackTop (s.place.addr stack) }
  others : s'.parent = s.parent ∧ s'.place = s.place ∧ s'.caller = s.caller
  start : ∃ m st, w.buf stack = some m ∧ Decodes (s.place.addr stack) m s'.frame.esp args envs st

/-- How `execve` returns. -/
def Outcome (v : Vfs) (s s' : State) (t : Task) (r : Int) (path : CStr) (args envs : List CStr) : Prop :=
  (r = -1 ∧ Unchanged v s s') ∨ (r = 0 ∧ ∃ w stack snap, Started v s s' t w stack snap path args envs)

/-- Which of the states on the way `s` is does not matter. -/
theorem Outcome.of_vfs {v x : Vfs} {s s' : State} {t : Task} {r : Int} {path : CStr} {args envs : List CStr}
    (h : Outcome v { s with vfs := x } s' t r path args envs) : Outcome v s s' t r path args envs := by
  rcases h with ⟨hr, hsame, hrest⟩ | ⟨hr, w, stack, snap, hrest, hold, hsnap, htask, hothers, hstart⟩
  · exact .inl ⟨hr, hsame, hrest⟩
  · exact .inr ⟨hr, w, stack, snap, hrest, hold, hsnap, htask, hothers, hstart⟩

section Pieces

variable {v w w' : Vfs} {a stack : Nat} {d more : List Nat} {argv envv : Vec} {args envs strs : List CStr}

/-- What the strings are copied from. -/
theorem readVec_spec {entries : List KString} {texts : List (List UInt8)} (h : Holds w entries strs)
    (hlens : entries.map KString.len = strs.map List.length) (hr : readVec w entries = .ret texts) :
    texts = strs.map withNul := by
  induction h generalizing texts with
  | nil =>
      cases hr
      rfl
  | @cons k str entries strs hk _ ih =>
      rw [List.map_cons, List.map_cons, List.cons.injEq] at hlens
      obtain ⟨m, hm, hlen, hread⟩ := hk
      obtain ⟨m', hm', hr⟩ := Exec.bind_eq_ret.mp hr
      obtain rfl := Option.some.inj (hm.symm.trans (Vfs.loadBuf_ret hm'))
      split at hr
      · obtain ⟨rest, hrest, hr⟩ := Exec.bind_eq_ret.mp hr
        cases hr
        rw [ih hlens.2 hrest, List.map_cons, hlens.1]
        rw [withNul, List.length_append, List.length_singleton] at hread
        exact congrArg (· :: strs.map withNul) hread
      · cases hr

/-- What was there at the first look is there at the second. -/
theorem loadLoop_ok {h : Header} {rounds i c last : Nat} {mem mem' : Nat → UInt8} {ok : Bool}
    (hsame : ∀ o n, vfsRead w' a o n = vfsRead w a o n) (hscan : scanLoop w a h rounds i c = .ret (some last))
    (hload : loadLoop w' a h rounds i mem = .ret (mem', ok)) : ok = true := by
  induction rounds generalizing i c mem with
  | zero =>
      cases hload
      rfl
  | succ rounds ih =>
      obtain ⟨seg, hseg, hscan⟩ := Exec.bind_eq_ret.mp hscan
      obtain ⟨seg', hseg', hload⟩ := Exec.bind_eq_ret.mp hload
      have hboth : readSegment w' a h i = readSegment w a h i := by
        rw [readSegment, readSegment, hsame]
      rw [hboth, hseg] at hseg'
      cases hseg'
      cases seg with
      | none => cases hscan
      | some seg =>
          dsimp only at hscan hload
          split at hload
          · rename_i hskip
            rw [if_pos hskip] at hscan
            exact ih hscan hload
          · rename_i hskip
            rw [if_neg hskip] at hscan
            obtain ⟨mem₁, _, hload⟩ := Exec.bind_eq_ret.mp hload
            exact ih hscan hload

/-- A buffer for the task goes. -/
theorem Stage.free {node : Option Nat} {b : Nat} (h : Stage v w node d (b :: more) argv envv args envs)
    (hk : kfreeBuf w b = .ret w') : Stage v w' node d more argv envv args envs := by
  have hperm : (bufs argv.entries ++ (bufs envv.entries ++ (d ++ b :: more))).Perm
      (b :: (bufs argv.entries ++ (bufs envv.entries ++ (d ++ more)))) := by
    rw [List.perm_iff_count]
    intro x
    simp only [List.count_append, List.count_cons]
    omega
  have hnodup := (List.nodup_cons.mp (h.holding.perm hperm).nodup).1
  obtain ⟨hhold, hfreed⟩ := kfreeBuf_spec (h.holding.perm hperm) hk
  have hkept : ∀ x ∈ bufs argv.entries ++ (bufs envv.entries ++ (d ++ more)), w'.buf x = w.buf x := by
    intro x hx
    refine hfreed.buf x fun hxb => hnodup ?_
    exact List.mem_singleton.mp hxb ▸ hx
  exact ⟨hhold, h.node.congr hfreed.node, h.argvOk, h.envvOk,
    h.args.keep fun x hx => hkept x (List.mem_append_left _ hx),
    h.envs.keep fun x hx => hkept x (List.mem_append_right _ (List.mem_append_left _ hx))⟩

/-- The end of a failure that has a stack. -/
theorem Stage.abandon {s s' : State} {r : Int} (h : Stage v w (some a) d [stack] argv envv args envs)
    (hr : abandon s w a stack argv envv = .ret (s', r)) :
    r = -1 ∧ s' = { s with vfs := s'.vfs } ∧ Restored v s'.vfs [] := by
  obtain ⟨x, hx, hr⟩ := Exec.bind_eq_ret.mp hr
  obtain ⟨y, hy, hr⟩ := Exec.bind_eq_ret.mp hr
  obtain ⟨z, hz, hr⟩ := Exec.bind_eq_ret.mp hr
  cases hr
  refine ⟨rfl, rfl, ?_⟩
  exact ((h.closeNode hx).1.free hy).giveUp hz

/-- A buffer more for the task. -/
theorem Stage.take {node : Option Nat} {src : List UInt8} {p : Option Nat}
    (h : Stage v w node d more argv envv args envs) :
    kmallocBytes w src = .ret (w', p) →
      Keeps w w' ∧ match p with
        | none => Stage v w' node d more argv envv args envs
        | some b => Stage v w' node d (more ++ [b]) argv envv args envs ∧ Stores w' b src := by
  intro hk
  obtain ⟨hkeep, hp⟩ := kmallocBytes_spec h.holding hk
  have hold : ∀ x ∈ bufs argv.entries ++ (bufs envv.entries ++ (d ++ more)), w'.buf x = w.buf x :=
    fun x hx => hkeep.buf x (h.holding.fresh x hx).2
  have hargs := h.args.keep fun x hx => hold x (List.mem_append_left _ hx)
  have henvs := h.envs.keep fun x hx => hold x (List.mem_append_right _ (List.mem_append_left _ hx))
  refine ⟨hkeep, ?_⟩
  cases p with
  | none => exact ⟨hp, h.node.congr hkeep.node, h.argvOk, h.envvOk, hargs, henvs⟩
  | some b =>
      have hperm : (b :: (bufs argv.entries ++ (bufs envv.entries ++ (d ++ more)))).Perm
          (bufs argv.entries ++ (bufs envv.entries ++ (d ++ (more ++ [b])))) := by
        rw [List.perm_iff_count]
        intro x
        simp only [List.count_append, List.count_cons, List.count_nil]
        omega
      exact ⟨⟨hp.1.perm hperm, h.node.congr hkeep.node, h.argvOk, h.envvOk, hargs, henvs⟩, hp.2.2⟩

/-- Allocations do not change what the open node reads as. -/
theorem Stage.read {more' : List Nat} {argv' envv' : Vec} {args' envs' : List CStr}
    (h : Stage v w (some a) d more argv envv args envs) (h' : Stage v w' (some a) d more' argv' envv' args' envs')
    (hv : Settled v) (hkeep : Keeps w w') (o c : Nat) : vfsRead w' a o c = vfsRead w a o c := by
  cases h.node with
  | opened ho =>
      refine ho.read hv h.holding h'.holding hkeep.node (fun b hb => hkeep.buf b ?_) o c
      exact (h.holding.fresh b (List.mem_append_right _ (List.mem_append_right _ (List.mem_append_left _ hb)))).2

end Pieces

section Entering

variable {s s' : State} {t : Task} {v : Vfs} {stack entry clearEnd : Nat} {more : List Nat} {argv envv : Vec}
  {args envs : List CStr} {path : CStr} {r : Int}

/-- The end of `execve`: the new stack is built and the old one goes. -/
theorem enterImage_spec (h : Stage v s.vfs none [] (stack :: more) argv envv args envs)
    (hbudget : tooBig argv envv = false) {m₀ : Buf} (hm₀ : s.vfs.buf stack = some m₀)
    (hlen : m₀.len = execStackSize) (ht : s.task = some t)
    (he : enterImage s stack entry clearEnd path argv envv = .ret (s', r)) :
    r = 0 ∧ ∃ w m st, Restored v w (stack :: more) ∧ dropOldStack w t s.parent = .ret s'.vfs ∧
      w.buf stack = some m ∧ Decodes (s.place.addr stack) m s'.frame.esp args envs st ∧
      s' = { s with
        vfs := s'.vfs
        frame := s'.frame
        task := some { t with
          imgSize := clearEnd
          comm := commOf path
          cmdline := cmdlineOf (args.map withNul)
          userStackBase := some stack
          userStackTop := stackTop (s.place.addr stack) } } := by
  obtain ⟨texts, htexts, he⟩ := Exec.bind_eq_ret.mp he
  obtain ⟨texts', htexts', he⟩ := Exec.bind_eq_ret.mp he
  obtain rfl := readVec_spec h.args h.argvOk.lens htexts
  obtain rfl := readVec_spec h.envs h.envvOk.lens htexts'
  obtain ⟨m₁, hm₁, he⟩ := Exec.bind_eq_ret.mp he
  obtain rfl := Option.some.inj (hm₀.symm.trans (Vfs.loadBuf_ret hm₁))
  obtain ⟨p, m, st, hpush, hover, hwrite, hdec⟩ :=
    stack_decodes s.place stack hlen h.argvOk h.envvOk hbudget
  rw [hpush, Exec.ret_bind] at he
  obtain ⟨x, hx, he⟩ := Exec.bind_eq_ret.mp he
  rw [hover, hwrite] at he
  simp only [Bool.false_eq_true, if_false, Exec.ret_bind, ht] at he
  obtain ⟨y, hy, he⟩ := Exec.bind_eq_ret.mp he
  cases he
  obtain ⟨hhold, hroot⟩ := h.giveUp hx
  refine ⟨rfl, x.setBuf stack m, m, st, ⟨hhold.setBuf List.mem_cons_self m, hroot⟩, hy, ?_, hdec, rfl⟩
  exact Function.update_self _ _ _

/-- The copy of the image, if one is taken. -/
theorem takeSnapshot_spec {a : Nat} {d : List Nat} (h : Stage v s.vfs (some a) d more argv envv args envs)
    (ht : s.task = some t) (hs : takeSnapshot s = .ret s') :
    Keeps s.vfs s'.vfs ∧ ∃ (snap : Option Nat) (n : Nat),
      Stage v s'.vfs (some a) d (more ++ snap.toList) argv envv args envs ∧
      (snap ≠ none → t.imgSnapshot = none) ∧
      s' = { s with vfs := s'.vfs, task := some { t with imgSize := n, imgSnapshot := snap <|> t.imgSnapshot } } := by
  have hstay : s = { s with task := some { t with imgSize := t.imgSize, imgSnapshot := none <|> t.imgSnapshot } } := by
    cases s
    cases ht
    rfl
  have hidle : Stage v s.vfs (some a) d (more ++ (none : Option Nat).toList) argv envv args envs := by
    rwa [Option.toList_none, List.append_nil]
  unfold takeSnapshot at hs
  rw [ht] at hs
  split at hs
  · rename_i t' p ht' _
    cases ht'
    split at hs
    · rename_i hnew
      obtain ⟨⟨x, q⟩, hx, hs⟩ := Exec.bind_eq_ret.mp hs
      obtain ⟨hkeep, hq⟩ := h.take hx
      cases q with
      | none =>
          cases hs
          refine ⟨hkeep, none, t.imgSize, ?_, nofun, rfl⟩
          rwa [Option.toList_none, List.append_nil]
      | some b =>
          cases hs
          exact ⟨hkeep, some b, p.imgSize, hq.1, fun _ => hnew.2.1, rfl⟩
    · cases hs
      exact ⟨⟨rfl, fun _ _ => rfl, Nat.le_refl _⟩, none, t.imgSize, hidle, nofun, hstay⟩
  · cases hs
    exact ⟨⟨rfl, fun _ _ => rfl, Nat.le_refl _⟩, none, t.imgSize, hidle, nofun, hstay⟩

/-- From the headers on. -/
theorem loadImage_spec {a : Nat} {d : List Nat} (hv : Settled v)
    (h : Stage v s.vfs (some a) d [stack] argv envv args envs) (hbudget : tooBig argv envv = false)
    {m₀ : Buf} (hm₀ : s.vfs.buf stack = some m₀) (hlen : m₀.len = execStackSize) (ht : s.task = some t)
    (hl : loadImage s a stack path argv envv = .ret (s', r)) : Outcome v s s' t r path args envs := by
  have hfail : ∀ {s₁ : State} {r₁ : Int}, abandon s s.vfs a stack argv envv = .ret (s₁, r₁) →
      Outcome v s s₁ t r₁ path args envs := fun ha =>
    have ⟨hr, hsame, hrest⟩ := h.abandon ha
    .inl ⟨hr, hsame, hrest⟩
  obtain ⟨⟨header, ret⟩, hread, hl⟩ := Exec.bind_eq_ret.mp hl
  dsimp only at hl
  split at hl
  · exact hfail hl
  · obtain ⟨scanned, hscan, hl⟩ := Exec.bind_eq_ret.mp hl
    cases scanned with
    | none => exact hfail hl
    | some last =>
        dsimp only at hl
        split at hl
        · exact hfail hl
        · obtain ⟨s₁, hs₁, hl⟩ := Exec.bind_eq_ret.mp hl
          obtain ⟨hkeep, snap, n, hstage, hsnap, hsame⟩ := takeSnapshot_spec h ht hs₁
          obtain ⟨mem, hmem, hl⟩ := Exec.bind_eq_ret.mp hl
          obtain ⟨⟨mem', ok⟩, hload, hl⟩ := Exec.bind_eq_ret.mp hl
          have hok : ok = true := loadLoop_ok (h.read hstage hv hkeep) hscan hload
          subst hok
          obtain ⟨x, hx, hl⟩ := Exec.bind_eq_ret.mp hl
          obtain ⟨hshut, hmore⟩ := hstage.closeNode hx
          have hbuf : x.buf stack = some m₀ := by
            rw [hmore stack List.mem_cons_self, hkeep.buf stack, hm₀]
            exact (h.holding.fresh stack (by simp)).2
          have ht₁ : s₁.task = some { t with imgSize := n, imgSnapshot := snap <|> t.imgSnapshot } := by
            rw [hsame]
          have hs₁' : s₁.parent = s.parent ∧ s₁.place = s.place ∧ s₁.caller = s.caller := by
            rw [hsame]
            exact ⟨rfl, rfl, rfl⟩
          obtain ⟨rfl, w, m, st, hrest, hold, hwm, hdec, hs'⟩ :=
            enterImage_spec (s := { s₁ with mem := mem', vfs := x }) hshut hbudget hbuf hlen ht₁ hl
          dsimp only at hold hdec hs'
          rw [hs₁'.1] at hold
          rw [hs₁'.2.1] at hdec
          refine .inr ⟨rfl, w, stack, snap, hrest, hold, hsnap, ⟨min last 0x400000, ?_⟩, ?_, m, st, hwm, hdec⟩
          · rw [hs', hs₁'.2.1]
          · rw [hs']
            exact hs₁'

/-- From the end of the `#!` loop on. -/
theorem startImage_spec {d : List Nat} {script : Script} (hv : Settled v)
    (h : Stage v s.vfs script.node d [] script.argv envv args envs) (ht : s.task = some t)
    (hs : startImage s script envv = .ret (s', r)) : Outcome v s s' t r script.path args envs := by
  unfold startImage at hs
  cases hnode : script.node with
  | none =>
      rw [hnode] at h hs
      obtain ⟨x, hx, hs⟩ := Exec.bind_eq_ret.mp hs
      cases hs
      have hd : d = [] := by
        cases h.node
        rfl
      exact .inl ⟨rfl, rfl, (hd ▸ h).giveUp hx⟩
  | some a =>
      rw [hnode] at h hs
      dsimp only at hs
      split at hs
      · obtain ⟨x, hx, hs⟩ := Exec.bind_eq_ret.mp hs
        cases hs
        exact .inl ⟨rfl, rfl, h.closeAndGiveUp hx⟩
      · rename_i hbudget
        obtain ⟨⟨x, p⟩, hx, hs⟩ := Exec.bind_eq_ret.mp hs
        obtain ⟨hkeep, hp⟩ := h.take hx
        cases p with
        | none =>
            obtain ⟨y, hy, hs⟩ := Exec.bind_eq_ret.mp hs
            cases hs
            exact .inl ⟨rfl, rfl, hp.closeAndGiveUp hy⟩
        | some stack =>
            obtain ⟨hstage, m₀, hm₀, hlen, _⟩ := hp
            rw [List.length_replicate] at hlen
            have hload := loadImage_spec (s := { s with vfs := x }) hv hstage (Bool.eq_false_iff.mpr hbudget) hm₀
              hlen ht hs
            exact hload.of_vfs

end Entering

/-! ## The call -/

theorem short_readPath (s : State) (path : Nat) : Short (readPath s path) := by
  refine ⟨?_, fun hz => ?_⟩
  · refine Nat.lt_of_le_of_lt (List.takeWhile_sublist _).length_le ?_
    rw [length_bytes]
    decide
  · have := List.mem_takeWhile_imp hz
    exact absurd rfl (of_decide_eq_true this)

/-- The file that is loaded, and who has opened it. -/
def imageSource (s : State) (path : Nat) : Caller × CStr :=
  sourceOf s.caller s.vfs 5 (s.caller 5, readPath s path) (readPath s path)

/-- `execve` has passed the `#!` loop and its checks with `script`, has made
the stack and goes on to load the image from `node`, in the state `s₁`. -/
def StartsLoading (s : State) (path argvU envpU : Nat) (s₁ : State) (node stack : Nat) (script : Script)
    (envv : Vec) : Prop :=
  ∃ w₁ argv w₂ w₃ w₄,
    execCopyVec s s.vfs argvU execMaxArgs = .ret (w₁, some argv) ∧
    execCopyVec s w₁ envpU execMaxEnvs = .ret (w₂, some envv) ∧ tooBig argv envv = false ∧
    scriptLoop s.caller envv 5 w₂ ⟨readPath s path, argv, none⟩ = .ret (w₃, some script) ∧
    script.node = some node ∧ tooBig script.argv envv = false ∧
    kmallocBytes w₃ (List.replicate execStackSize 0) = .ret (w₄, some stack) ∧ s₁ = { s with vfs := w₄ }

section Call

variable {s s' s₁ : State} {t : Task} {path argvU envpU node stack : Nat} {script : Script} {envv : Vec} {r : Int}

/-- The two vectors, in kernel buffers. -/
theorem copyVecs_spec (hv : Settled s.vfs) {w₁ w₂ : Vfs} {argv envv : Vec}
    (h₁ : execCopyVec s s.vfs argvU execMaxArgs = .ret (w₁, some argv))
    (h₂ : execCopyVec s w₁ envpU execMaxEnvs = .ret (w₂, some envv)) :
    ∃ args envs, VectorAt s argvU args ∧ VectorAt s envpU envs ∧ Stage s.vfs w₂ none [] [] argv envv args envs := by
  obtain ⟨hkeep₁, hhold₁, args, hargs⟩ := execCopyVec_spec (.refl hv) h₁
  obtain ⟨hkeep₂, hhold₂, envs, henvs⟩ := execCopyVec_spec hhold₁ h₂
  have hold : ∀ b ∈ bufs argv.entries, w₂.buf b = w₁.buf b := fun b hb =>
    hkeep₂.buf b (hhold₁.fresh b (List.mem_append_left _ hb)).2
  have hperm : (bufs envv.entries ++ (bufs argv.entries ++ [])).Perm
      (bufs argv.entries ++ (bufs envv.entries ++ ([] ++ []))) := by
    rw [List.perm_iff_count]
    intro x
    simp only [List.count_append, List.count_nil]
    omega
  have hnode := hkeep₂.node.trans hkeep₁.node
  have hroot := RootOnly.refl hv.table
  exact ⟨args, envs, hargs.vector, henvs.vector, hhold₂.perm hperm, .shut (hnode ▸ hroot),
    hargs.accepted, henvs.accepted, hargs.holds.keep hold, henvs.holds⟩

/-- `execve` fails and leaves everything as it was, or the task runs the file
that the scripts lead to, with the arguments they make of `argv`. -/
theorem sysExecveImpl_spec (hv : Settled s.vfs) (ht : s.task = some t)
    (he : sysExecveImpl s path argvU envpU = .ret (s', r)) :
    (r = -1 ∧ Unchanged s.vfs s s') ∨
      ∃ args envs, VectorAt s argvU args ∧ VectorAt s envpU envs ∧
        Outcome s.vfs s s' t r (followScripts s.caller s.vfs 5 (readPath s path) args).1
          (followScripts s.caller s.vfs 5 (readPath s path) args).2 envs := by
  obtain ⟨⟨w₁, p₁⟩, h₁, he⟩ := Exec.bind_eq_ret.mp he
  obtain ⟨hkeep₁, hp₁⟩ := execCopyVec_spec (.refl hv) h₁
  have hroot := RootOnly.refl hv.table
  cases p₁ with
  | none =>
      cases he
      exact .inl ⟨rfl, rfl, hp₁, hkeep₁.node ▸ hroot⟩
  | some argv =>
      obtain ⟨⟨w₂, p₂⟩, h₂, he⟩ := Exec.bind_eq_ret.mp he
      cases p₂ with
      | none =>
          obtain ⟨hkeep₂, hp₂⟩ := execCopyVec_spec hp₁.1 h₂
          obtain ⟨x, hx, he⟩ := Exec.bind_eq_ret.mp he
          cases he
          obtain ⟨hhold, hfreed⟩ := execFreeVec_spec hp₂ hx
          exact .inl ⟨rfl, rfl, hhold, (hfreed.node.trans (hkeep₂.node.trans hkeep₁.node)) ▸ hroot⟩
      | some envv =>
          obtain ⟨args, envs, hargs, henvs, hstage⟩ := copyVecs_spec hv h₁ h₂
          refine .inr ⟨args, envs, hargs, henvs, ?_⟩
          dsimp only at he
          split at he
          · obtain ⟨x, hx, he⟩ := Exec.bind_eq_ret.mp he
            cases he
            exact .inl ⟨rfl, rfl, hstage.giveUp hx⟩
          · obtain ⟨⟨w₃, p₃⟩, h₃, he⟩ := Exec.bind_eq_ret.mp he
            have hp₃ := scriptLoop_spec hv (s.caller 5, readPath s path) hstage (short_readPath s path)
              (fun h0 => absurd h0 (by decide)) h₃
            cases p₃ with
            | none =>
                cases he
                exact .inl ⟨rfl, rfl, hp₃⟩
            | some script =>
                obtain ⟨d, hstage₃, hpath, _, _, _⟩ := hp₃
                rw [← hpath]
                have hstart := startImage_spec (s := { s with vfs := w₃ }) hv hstage₃ ht he
                exact hstart.of_vfs

/-- The rest of a call that starts to load an image. -/
theorem StartsLoading.call (h : StartsLoading s path argvU envpU s₁ node stack script envv) :
    sysExecveImpl s path argvU envpU = loadImage s₁ node stack script.path script.argv envv := by
  obtain ⟨w₁, argv, w₂, w₃, w₄, h₁, h₂, hbudget, h₃, hnode, hbudget', h₄, rfl⟩ := h
  simp only [sysExecveImpl, h₁, h₂, hbudget, h₃, Exec.ret_bind, Bool.false_eq_true, if_false, startImage, hnode,
    hbudget', h₄]

/-- The state in which it starts to. -/
theorem StartsLoading.stage (hv : Settled s.vfs) (h : StartsLoading s path argvU envpU s₁ node stack script envv) :
    ∃ d args envs, Stage s.vfs s₁.vfs (some node) d [stack] script.argv envv args envs ∧
      tooBig script.argv envv = false ∧ (∃ m, s₁.vfs.buf stack = some m ∧ m.len = execStackSize) ∧
      s₁.task = s.task ∧ Found s₁.vfs (some node) (exhausts s.caller s.vfs 5 (readPath s path)) ∧
      Shows s.vfs s₁.vfs node (imageSource s path) := by
  obtain ⟨w₁, argv, w₂, w₃, w₄, h₁, h₂, _, h₃, hnode, hbudget, h₄, rfl⟩ := h
  obtain ⟨args, envs, _, _, hstage⟩ := copyVecs_spec hv h₁ h₂
  obtain ⟨d, hstage₃, _, _, hfound, hshows⟩ :=
    scriptLoop_spec hv (s.caller 5, readPath s path) hstage (short_readPath s path) (fun h0 => absurd h0 (by decide)) h₃
  obtain ⟨hkeep, hstage₄, m, hm, hlen, _⟩ := hstage₃.take h₄
  rw [List.length_replicate] at hlen
  rw [hnode] at hstage₃ hstage₄ hfound
  refine ⟨d, _, envs, hstage₄, hbudget, ⟨m, hm, hlen⟩, rfl, ?_, ?_⟩
  · obtain ⟨a, hbuf, r, ha, hread, hhead⟩ := hfound
    cases ha
    refine ⟨node, hbuf, r, rfl, ?_, hhead⟩
    rw [← hread]
    exact hstage₃.read hstage₄ hv hkeep 0 128
  · exact (hshows node hnode).congr (hstage₃.read hstage₄ hv hkeep)

end Call

end LiteBSD.Execve
