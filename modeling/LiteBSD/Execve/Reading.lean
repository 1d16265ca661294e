/-
# `LiteBSD.Execve.Reading` — the files are the same all through `execve`

`execve` opens files and reads them while it allocates and frees buffers of
its own.  None of that changes what a path leads to or what a file reads as,
so that what the `#!` loop and the loader see can be said of the state before
the call (`fileHead`, `fileRead`).
-/
import LiteBSD.Execve.Blocks
import LiteBSD.Vfs.Access
import Mathlib.Data.List.Find

namespace LiteBSD.Execve

/-! ## States with the same files -/

/-- The listed nodes and the root are the same but for their counts, and so
are their buffers. -/
structure SameFiles (v w : Vfs) : Prop where
  nodes : w.nodes = v.nodes
  fb : w.fb = v.fb
  node : ∀ a, a = rootAddr ∨ a ∈ v.nodes → ∃ n k, v.node a = some n ∧ w.node a = some { n with refs := k }
  buf : ∀ a n b, v.node a = some n → n.data = some b → w.buf b = v.buf b

section Same

variable {v w w' : Vfs} {l d : List Nat} {a : Nat}

theorem RootOnly.sameFiles (hr : RootOnly v.node w.node) (hv : Settled v) (h : Holding v w l) : SameFiles v w := by
  refine ⟨h.aside.nodes, h.aside.fb, fun a ha => ?_, fun a n b hn hb => h.old b (hv.texts.below a n b hn hb)⟩
  by_cases hroot : a = rootAddr
  · obtain ⟨n, k, hn, _, hw⟩ := hr.2
    exact hroot ▸ ⟨n, k, hn, hw⟩
  · obtain ⟨n, hn, _⟩ := hv.table.listed a (ha.resolve_left hroot)
    exact ⟨n, n.refs, hn, (hr.1 a hroot).trans hn⟩

theorem SameFiles.hasPath (h : SameFiles v w) (path : CStr) (ha : a ∈ v.nodes) :
    w.hasPath path a = v.hasPath path a := by
  obtain ⟨n, k, hn, hw⟩ := h.node a (.inr ha)
  rw [Vfs.hasPath, Vfs.hasPath, hn, hw]
  rfl

theorem SameFiles.findNode (h : SameFiles v w) (path : CStr) : findNode w path = findNode v path := by
  unfold LiteBSD.findNode
  split
  · rfl
  · rw [h.nodes]
    exact List.find?_congr fun a ha => h.hasPath path ha

theorem SameFiles.followLoop (h : SameFiles v w) (depth : Nat) (resolved : CStr) :
    followLoop w depth resolved = followLoop v depth resolved := by
  induction depth generalizing resolved with
  | zero => rfl
  | succ depth ih =>
      unfold LiteBSD.followLoop
      rw [h.findNode]
      cases hf : LiteBSD.findNode v resolved with
      | none => rfl
      | some a =>
          obtain ⟨n, k, hn, hw⟩ := h.node a (findNode_listed hf)
          simp only [Vfs.load, hn, hw, Exec.ret_bind]
          have hlink : isSymlinkNode { n with refs := k } = isSymlinkNode n := rfl
          rw [hlink]
          split
          · rfl
          · cases hd : n.data with
            | none => rfl
            | some b =>
                simp only [Vfs.loadBuf, h.buf a n b hn hd, ih]

theorem SameFiles.destination (h : SameFiles v w) (resolved : CStr) :
    destination w resolved = destination v resolved := by
  unfold LiteBSD.destination followSymlinks
  rw [h.followLoop]
  refine congrArg (LiteBSD.followLoop v 8 resolved >>= ·) (funext fun followed => ?_)
  cases followed with
  | none => rfl
  | some q => simp only [Option.bind_some, h.findNode]

/-- What `vfs_read` gives depends on the node and its buffer. -/
theorem vfsRead_congr {n : Node} {k : Int} {x : Nat} (hn : w.node a = some n) (hn' : w'.node x = some { n with refs := k })
    (hfb : w'.fb = w.fb) (hbuf : ∀ b, n.data = some b → w'.buf b = w.buf b) (offset count : Nat) :
    vfsRead w' x offset count = vfsRead w a offset count := by
  unfold vfsRead
  simp only [Vfs.load, hn, hn', Exec.ret_bind, hfb]
  have hdir : Node.dirBit { n with refs := k } = n.dirBit := rfl
  have hlink : isSymlinkNode { n with refs := k } = isSymlinkNode n := rfl
  rw [hdir, hlink]
  cases hd : n.data with
  | none => rfl
  | some b => simp only [Vfs.loadBuf, hbuf b hd]

end Same

/-! ## What a file begins with -/

/-- The first bytes of the file that `path` leads to; `none` for no file. -/
def fileHead (v : Vfs) (c : Caller) (path : CStr) : Option (List UInt8) :=
  match synthLookup c.pids (c.resolve path) with
  | some sid => if sid.isDir then some [] else (c.gen sid).map (·.take 128)
  | none =>
      match destination v (c.resolve path) with
      | .ret (some a) =>
          match vfsRead v a 0 128 with
          | .ret (hbuf, _) => some hbuf
          | _ => none
      | _ => none

/-- What the file that `path` leads to reads as. -/
def fileRead (v : Vfs) (c : Caller) (path : CStr) (offset count : Nat) : Option (List UInt8 × Int) :=
  match synthLookup c.pids (c.resolve path) with
  | some sid =>
      if sid.isDir then some ([], -1)
      else (c.gen sid).map fun content =>
        ((content.drop offset).take count, int32 ((content.drop offset).take count).length)
  | none =>
      match destination v (c.resolve path) with
      | .ret (some a) =>
          match vfsRead v a offset count with
          | .ret got => some got
          | _ => none
      | _ => none

/-- The open node `a` reads as a path did before. -/
def Shows (v w : Vfs) (a : Nat) (source : Caller × CStr) : Prop :=
  ∀ offset count got, vfsRead w a offset count = .ret got → fileRead v source.1 source.2 offset count = some got

section Heads

variable {v w w' : Vfs} {l d : List Nat} {a : Nat} {c : Caller} {path : CStr}

theorem Shows.congr {source : Caller × CStr} (h : Shows v w a source)
    (hsame : ∀ offset count, vfsRead w' a offset count = vfsRead w a offset count) : Shows v w' a source :=
  fun offset count got hread => h offset count got ((hsame offset count).symm.trans hread)

/-- The buffer of the open node is not one that `execve` frees. -/
theorem Opened.data (ho : Opened v w a d) (hv : Settled v) {n : Node} {b : Nat} (hn : w.node a = some n)
    (hb : n.data = some b) : b < v.nextObj ∨ b ∈ d := by
  cases ho with
  | root hr =>
      obtain ⟨m, k, hm, _, hw⟩ := hr.2
      obtain rfl := Option.some.inj (hn.symm.trans hw)
      exact .inl (hv.texts.below _ m b hm hb)
  | @real _ m g hroot hr hg _ _ hnode =>
      rw [hnode, Function.update_self, Option.some.injEq] at hn
      subst hn
      exact .inl (hv.texts.below a m b ((hr.1 a hroot).symm.trans hg) hb)
  | @synth _ m g _ _ _ _ _ hnode =>
      rw [hnode, Function.update_self, Option.some.injEq] at hn
      subst hn
      exact .inr (by simp [hb])

/-- Reading the open node again. -/
theorem Opened.read {l' : List Nat} (ho : Opened v w a d) (hv : Settled v) (h : Holding v w l)
    (h' : Holding v w' l') (hnode : w'.node = w.node) (hbuf : ∀ b ∈ d, w'.buf b = w.buf b)
    (offset count : Nat) : vfsRead w' a offset count = vfsRead w a offset count := by
  cases hn : w.node a with
  | none =>
      have hn' : w'.node a = none := (congrFun hnode a).trans hn
      rw [vfsRead, vfsRead, Vfs.load, Vfs.load, hn, hn']
      rfl
  | some n =>
      refine vfsRead_congr hn ((congrFun hnode a).trans hn) (h'.aside.fb.trans h.aside.fb.symm) (fun b hb => ?_)
        offset count
      rcases ho.data hv hn hb with hlt | hmem
      · exact (h'.old b hlt).trans (h.old b hlt).symm
      · exact hbuf b hmem

/-- A part of what the block holds. -/
theorem read_part {m : Buf} {content : List UInt8} (hm : m.read 0 content.length = content) (offset count : Nat) :
    m.read offset (min count (content.length - offset)) = (content.drop offset).take count := by
  rw [← hm, Buf.read, Buf.read, List.length_map, List.length_range, ← List.map_drop, ← List.map_take]
  refine List.ext_getElem (by simp) fun i hi hi' => ?_
  simp

/-- Reading a generated file, whose text is in its buffer. -/
theorem read_synth {resolved : CStr} {sid : SynthId} {pids : List Nat} {data : Option Nat} {content : List UInt8}
    (hs : synthLookup pids resolved = some sid) (hdir : sid.isDir = false) (hlen : resolved.length ≤ 255)
    (hn : w.node a = some (synthNode resolved sid data content.length)) (hsome : content ≠ [] → data ≠ none)
    (hdata : ∀ b, data = some b → ∃ m, w.buf b = some m ∧ m.len = content.length ∧ m.read 0 content.length = content)
    (offset count : Nat) : vfsRead w a offset count =
      .ret ((content.drop offset).take count, int32 ((content.drop offset).take count).length) := by
  have hpath : (synthNode resolved sid data content.length).path = resolved := List.take_of_length_le hlen
  have hne : resolved ≠ devNull ∧ resolved ≠ devZero ∧ resolved ≠ devFb0 := by
    refine ⟨?_, ?_, ?_⟩ <;> (rintro rfl; exact nomatch hs)
  have hreg : (synthNode resolved sid data content.length).dirBit = false ∧
      isSymlinkNode (synthNode resolved sid data content.length) = false := by
    unfold Node.dirBit isSymlinkNode synthNode
    simp [hdir, sIfreg, sIfdir, sIflnk]
  simp only [vfsRead, Vfs.load, hn, Exec.ret_bind, hreg, hpath, hne, Bool.false_eq_true, if_false]
  have hsize : (synthNode resolved sid data content.length).size = content.length := rfl
  have hd : (synthNode resolved sid data content.length).data = data := rfl
  rw [hsize, hd]
  split
  · rename_i hend
    rw [List.drop_of_length_le hend, List.take_nil]
    rfl
  · rename_i hend
    split
    · have hcount : count = 0 := by omega
      rw [hcount, List.take_zero]
      rfl
    · cases data with
      | none =>
          have hempty : content = [] := Decidable.not_not.mp fun hne => hsome hne rfl
          rw [hempty] at hend
          exact absurd (Nat.zero_le _) hend
      | some b =>
          obtain ⟨m, hm, hroom, htext⟩ := hdata b rfl
          simp only [Vfs.loadBuf, hm, Exec.ret_bind]
          rw [if_pos (by omega), read_part htext, List.length_take, List.length_drop]

/-- What `synth_open` has made, when it succeeds. -/
theorem synthOpen_made {resolved : CStr} {sid : SynthId} (h : synthOpen w c resolved sid = .ret (w', some a)) :
    ∃ content data, (if sid.isDir then some [] else c.gen sid) = some content ∧
      w'.node a = some (synthNode resolved sid data content.length) ∧ (content ≠ [] → data ≠ none) ∧
      ∀ b, data = some b → ∃ m, w'.buf b = some m ∧ m.len = content.length ∧
        m.read 0 content.length = content := by
  unfold synthOpen at h
  split at h
  · cases h
  · rename_i content hcontent
    obtain ⟨⟨x, q⟩, _, h⟩ := Exec.bind_eq_ret.mp h
    cases q with
    | none => cases h
    | some b =>
        obtain ⟨⟨y, data⟩, hy, h⟩ := Exec.bind_eq_ret.mp h
        dsimp only at h
        split at h
        · cases h
        · rename_i hyes
          obtain ⟨z, hz, h⟩ := Exec.bind_eq_ret.mp h
          cases h
          refine ⟨content, data, hcontent, Function.update_self _ _ _, fun hne hd => hyes ⟨hne, hd⟩, fun b hd => ?_⟩
          rcases Vfs.kmallocBuf_ret hy with ⟨hnone, _⟩ | ⟨hnew, rfl⟩
          · rw [hnone] at hd
            cases hd
          · obtain rfl := Option.some.inj (hnew.symm.trans hd)
            rcases Vfs.storeBytes_ret hz with ⟨rfl, rfl⟩ | ⟨b', m', hd', hm', _, rfl⟩
            · exact ⟨_, Function.update_self _ _ _, rfl, rfl⟩
            · obtain rfl := Option.some.inj (hd.symm.trans hd')
              have hm' : Function.update x.buf x.nextObj _ x.nextObj = some m' := hm'
              rw [Function.update_self, Option.some.injEq] at hm'
              subst hm'
              exact ⟨_, Function.update_self _ _ _, rfl, read_write _ content⟩

/-- An open file reads as what its path leads to. -/
theorem open_reads_iff (hv : Settled v) (h : Holding v w l) (hr : RootOnly v.node w.node)
    (ho : vfsOpen w c path 0 = .ret (w', some a)) {offset count : Nat} {got : List UInt8 × Int} :
    vfsRead w' a offset count = .ret got ↔ fileRead v c path offset count = some got := by
  have hsame := hr.sameFiles hv h
  unfold fileRead
  cases hs : synthLookup c.pids (c.resolve path) with
  | none =>
      rw [vfsOpen_real hs, hsame.destination] at ho
      obtain ⟨target, hdest, ho⟩ := Exec.bind_eq_ret.mp ho
      cases target with
      | none => cases ho
      | some t =>
          obtain ⟨n', hn', ho⟩ := Exec.bind_eq_ret.mp ho
          cases ho
          have hlisted : a = rootAddr ∨ a ∈ v.nodes := by
            obtain ⟨followed, _, hf⟩ := Exec.bind_eq_ret.mp hdest
            rw [Exec.ret.injEq] at hf
            obtain ⟨q, _, hq⟩ := Option.bind_eq_some_iff.mp hf
            exact findNode_listed hq
          obtain ⟨n, k, hn, hw⟩ := hsame.node a hlisted
          obtain rfl := Option.some.inj ((Vfs.load_ret hn').symm.trans hw)
          rw [vfsRead_congr hn (Vfs.node_setNode_self w a { n with refs := k + 1 }) hsame.fb
            (fun b hb => hsame.buf a n b hn hb) offset count]
          simp only [hdest]
          cases vfsRead v a offset count <;> simp
  | some sid =>
      simp only [vfsOpen, hs] at ho
      rw [if_neg (by decide)] at ho
      obtain ⟨content, data, hcontent, hn, hsome, hdata⟩ := synthOpen_made ho
      cases hdir : sid.isDir with
      | true =>
          have hdirbit : (synthNode (c.resolve path) sid data content.length).dirBit = true := by
            unfold Node.dirBit synthNode
            simp [hdir, sIfdir]
          simp only [vfsRead, Vfs.load, hn, Exec.ret_bind, hdirbit, hdir, if_true, Exec.ret.injEq, Option.some.injEq]
      | false =>
          rw [hdir, if_neg (by decide)] at hcontent
          rw [read_synth hs hdir (vfsResolvePath_length _ _) hn hsome hdata]
          simp only [hdir, hcontent, Option.map_some, Bool.false_eq_true, if_false, Exec.ret.injEq, Option.some.injEq]

theorem shows_of_open (hv : Settled v) (h : Holding v w l) (hr : RootOnly v.node w.node)
    (ho : vfsOpen w c path 0 = .ret (w', some a)) : Shows v w' a (c, path) :=
  fun _ _ _ hread => (open_reads_iff hv h hr ho).mp hread

/-- The first 128 bytes. -/
theorem fileHead_eq (v : Vfs) (c : Caller) (path : CStr) :
    fileHead v c path = (fileRead v c path 0 128).map Prod.fst := by
  unfold fileRead fileHead
  cases hs : synthLookup c.pids (c.resolve path) with
  | some sid =>
      cases hdir : sid.isDir with
      | true => simp [hdir]
      | false => simp [hdir, Function.comp_def]
  | none =>
      dsimp only
      split
      · split
        · rename_i hread
          simp only [hread, Option.map_some]
        · rename_i hread
          split
          · rename_i hret
            exact absurd hret (hread _ _)
          · rfl
      · rfl

end Heads

end LiteBSD.Execve
