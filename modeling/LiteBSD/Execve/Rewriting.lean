/-
# `LiteBSD.Execve.Rewriting` — what becomes of `argv` on the way through scripts

A chain of scripts is read off the file system: each is followed by the
interpreter that its first line names, and behind the last one there is an ELF
file.  `#!` lines are described by what they are made of (`ScriptLine`), and
the new `argv` by a fold over the chain (`rewritten`).

The loop ends with that `argv`, and there is no way out of it on which a
buffer of a vector is lost or freed twice: freeing one that is not there would
be `undefined`, and the loop `Halts`.
-/
import LiteBSD.Execve.Accepted
import LiteBSD.Vfs.Writes

namespace LiteBSD.Execve

/-! ## Lines -/

/-- The bytes begin with a `#!` line: blanks, the name of an interpreter, and
perhaps one argument, which begins and ends with no blank. -/
structure ScriptLine (hbuf : List UInt8) (line : Line) : Prop where
  interp : line.interp ≠ [] ∧ ∀ c ∈ line.interp, isBlank c = false ∧ endsLine c = false
  optarg : ∀ c ∈ line.optarg, endsLine c = false
  trimmed : (∀ c ∈ line.optarg.head?, isBlank c = false) ∧ ∀ c ∈ line.optarg.getLast?, isBlank c = false
  layout : ∃ before between behind rest : List UInt8,
    hbuf = [35, 33] ++ (before ++ (line.interp ++ (between ++ (line.optarg ++ (behind ++ rest))))) ∧
      (∀ c ∈ before, isBlank c = true) ∧ (∀ c ∈ between, isBlank c = true) ∧ (∀ c ∈ behind, isBlank c = true) ∧
      (line.optarg ≠ [] → between ≠ []) ∧ ∀ c ∈ rest.head?, endsLine c = true

section Lines

variable {α : Type} {p : α → Bool} {body rest : List α}

theorem takeWhile_exact (hin : ∀ c ∈ body, p c = true) (hout : ∀ c ∈ rest.head?, p c = false) :
    (body ++ rest).takeWhile p = body := by
  rw [List.takeWhile_append_of_pos hin]
  cases rest with
  | nil => simp
  | cons c rest => simp [hout c rfl]

theorem dropWhile_exact (hin : ∀ c ∈ body, p c = true) (hout : ∀ c ∈ rest.head?, p c = false) :
    (body ++ rest).dropWhile p = rest := by
  rw [List.dropWhile_append_of_pos hin]
  cases rest with
  | nil => rfl
  | cons c rest => simp [hout c rfl]

/-- What a list begins with, when all of a first part has the property. -/
theorem head_append {P : α → Prop} (hfirst : ∀ c ∈ body, P c) (hrest : body = [] → ∀ c ∈ rest.head?, P c) :
    ∀ c ∈ (body ++ rest).head?, P c := by
  cases body with
  | nil => exact hrest rfl
  | cons b body =>
      intro c hc
      cases hc
      exact hfirst b List.mem_cons_self

theorem isBlank_of_endsLine {c : UInt8} (h : endsLine c = true) : isBlank c = false := by
  unfold endsLine at h
  rcases of_decide_eq_true h with rfl | rfl | rfl <;> decide

theorem endsLine_of_isBlank {c : UInt8} (h : isBlank c = true) : endsLine c = false := by
  unfold isBlank at h
  rcases of_decide_eq_true h with rfl | rfl <;> decide

/-- The name and the argument are found. -/
theorem parseLine_of_scriptLine {hbuf : List UInt8} {line : Line} (h : ScriptLine hbuf line) :
    parseLine hbuf = line := by
  obtain ⟨before, between, behind, rest, rfl, hbefore, hbetween, hbehind, hapart, hrest⟩ := h.layout
  have hblanks : ∀ c ∈ rest.head?, isBlank c = false := fun c hc => isBlank_of_endsLine (hrest c hc)
  -- the name ends at a blank or at the end of the line
  have hstop : ∀ c ∈ (between ++ (line.optarg ++ (behind ++ rest))).head?, (!endsLine c && !isBlank c) = false := by
    refine head_append (fun c hc => by simp [hbetween c hc]) fun hnone => ?_
    refine head_append (fun c hc => absurd hnone (hapart (List.ne_nil_of_mem hc))) fun _ => ?_
    exact head_append (fun c hc => by simp [hbehind c hc]) fun _ c hc => by simp [hrest c hc]
  have hname : ∀ c ∈ line.interp, (!endsLine c && !isBlank c) = true := fun c hc => by
    obtain ⟨hb, he⟩ := h.interp.2 c hc
    simp [hb, he]
  have hskip : (([35, 33] ++ (before ++ (line.interp ++ (between ++ (line.optarg ++ (behind ++ rest)))))).drop 2).dropWhile
      isBlank = line.interp ++ (between ++ (line.optarg ++ (behind ++ rest))) :=
    dropWhile_exact hbefore (head_append (fun c hc => (h.interp.2 c hc).1) fun hnone => absurd hnone h.interp.1)
  -- the argument, with the blanks behind it
  have harg : (((between ++ (line.optarg ++ (behind ++ rest))).dropWhile isBlank).takeWhile fun c => !endsLine c) =
      if line.optarg = [] then [] else line.optarg ++ behind := by
    split
    · rename_i hnone
      rw [hnone, List.nil_append, ← List.append_assoc, dropWhile_exact (List.forall_mem_append.mpr ⟨hbetween, hbehind⟩)
        hblanks]
      exact @takeWhile_exact _ _ [] _ nofun fun c hc => by simp [hrest c hc]
    · rename_i hsome
      rw [dropWhile_exact hbetween, ← List.append_assoc, takeWhile_exact]
      · intro c hc
        rcases List.mem_append.mp hc with hc | hc
        · simp [h.optarg c hc]
        · simp [endsLine_of_isBlank (hbehind c hc)]
      · exact fun c hc => by simp [hrest c hc]
      · cases ho : line.optarg with
        | nil => exact absurd ho hsome
        | cons d arg =>
            intro c hc
            exact h.trimmed.1 c (by rw [ho]; exact hc)
  have htrim : ((line.optarg ++ behind).reverse.dropWhile isBlank).reverse = line.optarg := by
    rw [List.reverse_append, dropWhile_exact, List.reverse_reverse]
    · exact fun c hc => hbehind c (List.mem_reverse.mp hc)
    · rw [List.head?_reverse]
      exact h.trimmed.2
  unfold parseLine
  rw [hskip]
  dsimp only
  rw [takeWhile_exact hname hstop, List.drop_left, harg]
  obtain ⟨interp, optarg⟩ := line
  split
  · rename_i hnone
    cases hnone
    rfl
  · exact congrArg (Line.mk interp) htrim

end Lines

/-! ## What is done is done to memory that is there -/

/-- Some `kmalloc` of an ordinary size returns `NULL`. -/
def RunsOut (v : Vfs) : Prop := ∃ i, v.mem.outcome i = .null

section Halting

variable {v w : Vfs} {a : Nat} {d l : List Nat} {src : List UInt8}

theorem kmalloc_halts (w : Vfs) (size : Nat) : (w.kmalloc size).Halts fun q =>
    q.1.mem = w.mem ∧ (q.2 = none → size = 0 ∨ RunsOut w) := by
  unfold Vfs.kmalloc
  split
  · rename_i hzero
    exact .ret ⟨rfl, fun _ => .inl hzero⟩
  · split
    · exact .inl ⟨_, rfl⟩
    · cases ho : w.mem.outcome w.nextObj with
      | block => exact .ret ⟨rfl, nofun⟩
      | null => exact .ret ⟨rfl, fun _ => .inr ⟨_, ho⟩⟩
      | oom => exact .inl ⟨_, rfl⟩

theorem kmallocBuf_halts (w : Vfs) (size : Nat) : (w.kmallocBuf size).Halts fun q =>
    q.1.mem = w.mem ∧ (q.2 = none → size = 0 ∨ RunsOut w) ∧
      ∀ b, q.2 = some b → ∃ m, q.1.buf b = some m ∧ m.len = size := by
  refine (kmalloc_halts w size).bind fun ⟨x, p⟩ ⟨hmem, hnone⟩ => ?_
  cases p with
  | none => exact .ret ⟨hmem, hnone, nofun⟩
  | some b =>
      refine .ret ⟨hmem, nofun, fun c hc => ?_⟩
      cases hc
      exact ⟨_, Function.update_self _ _ _, rfl⟩

/-- Bytes are stored in a block that has room for them. -/
theorem storeBytes_halts {data : Option Nat} (hdata : src ≠ [] → data ≠ none)
    (hroom : ∀ b, data = some b → ∃ m, w.buf b = some m ∧ m.len = src.length) :
    (w.storeBytes data 0 src).Halts fun x => x.mem = w.mem := by
  unfold Vfs.storeBytes
  split
  · exact .ret rfl
  · rename_i hne
    cases data with
    | none => exact absurd rfl (hdata hne)
    | some b =>
        obtain ⟨m, hm, hlen⟩ := hroom b rfl
        simp only [Vfs.loadBuf, hm, Exec.ret_bind]
        rw [if_pos (by omega)]
        exact .ret rfl

theorem kmallocBytes_halts (w : Vfs) (hne : src ≠ []) : (kmallocBytes w src).Halts fun q =>
    q.1.mem = w.mem ∧ (q.2 = none → RunsOut w) := by
  refine (kmallocBuf_halts w src.length).bind fun ⟨x, p⟩ ⟨hmem, hnone, hsome⟩ => ?_
  cases p with
  | none =>
      refine .ret ⟨hmem, fun _ => (hnone rfl).resolve_left fun hzero => ?_⟩
      exact hne (List.length_eq_zero_iff.mp hzero)
  | some b =>
      have hstore : (x.storeBytes (some b) 0 src).Halts fun y => y.mem = x.mem :=
        storeBytes_halts (fun _ => Option.some_ne_none b) hsome
      exact hstore.bind fun y hy => .ret ⟨hy.trans hmem, nofun⟩

theorem execFreeVec_mem {entries : List KString} {w' : Vfs} (hf : execFreeVec w entries = .ret w') : w'.mem = w.mem := by
  induction entries generalizing w with
  | nil =>
      cases hf
      rfl
  | cons k entries ih =>
      obtain ⟨x, hx, hf⟩ := Exec.bind_eq_ret.mp hf
      unfold kfreeBuf at hx
      split at hx
      · cases hx
      · cases hx
        have hrest := ih hf
        exact hrest

theorem execFreeVec_halts {entries : List KString} (h : Holding v w (bufs entries ++ l)) :
    (execFreeVec w entries).Halts fun x => x.mem = w.mem := by
  obtain ⟨x, hx⟩ := execFreeVec_returns h
  exact .inr ⟨x, hx, execFreeVec_mem hx⟩

/-- The open node is there, so that it can be closed. -/
theorem vfsClose_halts (ho : Opened v w a d) : (vfsClose w a).Halts fun q => q.1.mem = w.mem := by
  obtain ⟨n, hn⟩ : ∃ n, w.node a = some n := by
    cases ho with
    | root hr =>
        obtain ⟨n, k, -, -, hw⟩ := hr.2
        exact ⟨_, hw⟩
    | real _ _ _ _ _ hnode => exact ⟨_, by rw [hnode, Function.update_self]⟩
    | synth _ _ _ _ _ hnode => exact ⟨_, by rw [hnode, Function.update_self]⟩
  unfold vfsClose
  rw [Vfs.load_live hn, Exec.ret_bind]
  dsimp only
  generalize (if a ≠ rootAddr ∧ n.refs > 0 then { n with refs := n.refs - 1 } else n) = m
  split
  · refine .ret ?_
    show ((w.setNode a m).freeBuf m.data).mem = w.mem
    rw [Vfs.freeBuf_mem]
    rfl
  · exact .ret rfl

theorem closeNode_halts {node : Option Nat} (ho : MayOpen v w node d) :
    (closeNode w node).Halts fun x => x.mem = w.mem := by
  cases ho with
  | shut => exact .ret rfl
  | opened ho => exact (vfsClose_halts ho).bind fun _ hq => .ret hq

theorem giveUp_halts {argv envv : Vec} (h : Holding v w (bufs argv.entries ++ (bufs envv.entries ++ l))) :
    (giveUp w argv envv).Halts fun x => x.mem = w.mem := by
  obtain ⟨x, hx⟩ := execFreeVec_returns h
  obtain ⟨y, hy⟩ := execFreeVec_returns (execFreeVec_spec h hx).1
  refine .inr ⟨y, ?_, (execFreeVec_mem hy).trans (execFreeVec_mem hx)⟩
  rw [giveUp, hx, Exec.ret_bind, hy]

/-- The vectors can be given back, and nothing is left of them. -/
theorem giveBack_halts {node : Option Nat} {more : List Nat} {argv envv : Vec} {args envs : List CStr}
    (h : Stage v w node d more argv envv args envs) :
    (closeNode w node >>= fun x => giveUp x argv envv).Halts fun x => Restored v x more := by
  refine (closeNode_halts h.node).ran.bind fun x ⟨hx, _⟩ => ?_
  have hshut := (h.closeNode hx).1
  exact (giveUp_halts hshut.holding).ran.mono fun y ⟨hy, _⟩ => hshut.giveUp hy

/-- A file that was found to begin somehow can be opened again, if there is
memory. -/
theorem vfsOpen_halts (hv : Settled v) (h : Holding v w l) (hr : RootOnly v.node w.node) {c : Caller} {path : CStr}
    {hbuf : List UInt8} (hhead : fileHead v c path = some hbuf) :
    (vfsOpen w c path 0).Halts fun q => q.1.mem = w.mem ∧ (q.2 = none → RunsOut w) := by
  have hsame := hr.sameFiles hv h
  unfold fileHead at hhead
  cases hs : synthLookup c.pids (c.resolve path) with
  | none =>
      simp only [hs] at hhead
      rw [vfsOpen_real hs, hsame.destination]
      split at hhead
      · rename_i a hdest
        obtain ⟨followed, -, hf⟩ := Exec.bind_eq_ret.mp hdest
        rw [Exec.ret.injEq] at hf
        obtain ⟨q, -, hq⟩ := Option.bind_eq_some_iff.mp hf
        obtain ⟨n, k, -, hn⟩ := hsame.node a (findNode_listed hq)
        rw [hdest, Exec.ret_bind, openNode, Vfs.load_live hn]
        exact .ret ⟨rfl, fun h => by cases h⟩
      · cases hhead
  | some sid =>
      obtain ⟨content, hcontent⟩ : ∃ content, (if sid.isDir then some [] else c.gen sid) = some content := by
        simp only [hs] at hhead
        split at hhead
        · rename_i hdir
          exact ⟨[], if_pos hdir⟩
        · rename_i hdir
          obtain ⟨content, hcontent, -⟩ := Option.map_eq_some_iff.mp hhead
          exact ⟨content, (if_neg hdir).trans hcontent⟩
      simp only [vfsOpen, hs]
      rw [if_neg (by decide), synthOpen, hcontent]
      refine (kmalloc_halts w nodeSize).bind fun q hq => ?_
      obtain ⟨x, p⟩ := q
      obtain ⟨hx, hnone⟩ := hq
      cases p with
      | none => exact .ret ⟨hx, fun _ => (hnone rfl).resolve_left (by decide)⟩
      | some a =>
          refine (kmallocBuf_halts x content.length).bind fun q hq => ?_
          obtain ⟨y, data⟩ := q
          obtain ⟨hy, hnull, hroom⟩ := hq
          dsimp only at hy hnull hroom ⊢
          have hmem : y.mem = w.mem := hy.trans hx
          split
          · rename_i hno
            refine .ret ⟨hmem, fun _ => ?_⟩
            obtain ⟨i, hi⟩ := (hnull hno.2).resolve_left fun hzero => hno.1 (List.length_eq_zero_iff.mp hzero)
            exact ⟨i, hx ▸ hi⟩
          · rename_i hyes
            have hstore : (y.storeBytes data 0 content).Halts fun z => z.mem = y.mem :=
              storeBytes_halts (fun hne hd => hyes ⟨hne, hd⟩) hroom
            exact hstore.bind fun z hz => .ret ⟨hz.trans hmem, fun h => by cases h⟩

theorem newStrings_halts {texts : List CStr} {made : List KString} (h : Holding v w (bufs made ++ l)) :
    (newStrings w texts made).Halts fun q => q.1.mem = w.mem ∧ (q.2 = none → RunsOut w) := by
  induction texts generalizing w made with
  | nil => exact .ret ⟨rfl, fun h => by cases h⟩
  | cons text texts ih =>
      have htext : text ++ [0] ≠ [] := by simp
      refine (kmallocBytes_halts w htext).ran.bind fun q hq => ?_
      obtain ⟨x, p⟩ := q
      obtain ⟨hk, hmem, hnone⟩ := hq
      obtain ⟨-, hp⟩ := kmallocBytes_spec h hk
      cases p with
      | none => exact (execFreeVec_halts hp).bind fun y hy => .ret ⟨hy.trans hmem, fun _ => hnone rfl⟩
      | some b =>
          have hperm : (b :: (bufs made ++ l)).Perm (bufs (made ++ [KString.mk b text.length]) ++ l) := by
            rw [bufs, bufs, List.map_append, List.append_assoc]
            exact List.perm_middle.symm
          refine (ih (hp.1.perm hperm)).mono fun q hq => ⟨hq.1.trans hmem, fun hno => ?_⟩
          obtain ⟨i, hi⟩ := hq.2 hno
          exact ⟨i, hmem ▸ hi⟩

/-- The vector of the interpreter can be made, and `argv[0]` freed. -/
theorem rewriteArgv_halts {line : Line} {path : CStr} {argv : Vec} (h : Holding v w (bufs argv.entries ++ l)) :
    (rewriteArgv w line path argv).Halts fun q => q.1.mem = w.mem ∧ (q.2 = none → RunsOut w) := by
  have hempty : Holds w [] [] := .nil
  have hstart : Holding v w (bufs [] ++ (bufs argv.entries ++ l)) := h
  refine (newStrings_halts hstart).ran.bind fun ⟨x, made⟩ ⟨hn, hmem, hnone⟩ => ?_
  cases made with
  | none => exact .ret ⟨hmem, fun _ => hnone rfl⟩
  | some made =>
      obtain ⟨-, -, hhold, -, -⟩ := newStrings_spec hstart hempty rfl hn
      have hold := hhold.perm (perm_bufs_replaced made argv.entries l)
      exact (execFreeVec_halts hold).bind fun y hy => .ret ⟨hy.trans hmem, nofun⟩

end Halting

/-! ## Chains -/

/-- `path` leads through these scripts, each with the line it begins with, to
the ELF file `final`, in at most so many rounds. -/
def Chain (caller : Nat → Caller) (v : Vfs) : Nat → CStr → List (CStr × Line) → CStr → Prop
  | 0, _, _, _ => False
  | rounds + 1, path, [], final =>
      path = final ∧ ∃ hbuf, fileHead v (caller rounds) path = some hbuf ∧ isElf hbuf = true
  | rounds + 1, path, (script, line) :: scripts, final =>
      path = script ∧ (∃ hbuf, fileHead v (caller rounds) path = some hbuf ∧ ScriptLine hbuf line) ∧
        Chain caller v rounds line.interp scripts final

/-- `argv` behind the scripts: each puts the interpreter, its argument if there
is one, and its own path in place of `argv[0]`. -/
def rewritten (args : List CStr) (scripts : List (CStr × Line)) : List CStr :=
  scripts.foldl (fun argv script =>
    [script.2.interp] ++ (if script.2.optarg = [] then [] else [script.2.optarg]) ++ [script.1] ++ argv.tail) args

section Chains

variable {caller : Nat → Caller} {v w w' : Vfs} {rounds : Nat} {path final : CStr} {scripts : List (CStr × Line)}
  {hbuf : List UInt8} {line : Line} {args envs : List CStr} {node : Option Nat} {d : List Nat} {argv envv : Vec}

theorem isScript_of_scriptLine (h : ScriptLine hbuf line) : isScript hbuf = true := by
  obtain ⟨before, between, behind, rest, rfl, -⟩ := h.layout
  exact decide_eq_true rfl

theorem rewritten_cons (args : List CStr) (script : CStr) (line : Line) (scripts : List (CStr × Line)) :
    rewritten args ((script, line) :: scripts) = rewritten (frontTexts line script ++ args.drop 1) scripts := by
  rw [rewritten, List.foldl_cons, List.drop_one]
  rfl

/-- The loop of the model follows the chain. -/
theorem Chain.follow (h : Chain caller v rounds path scripts final) (args : List CStr) :
    followScripts caller v rounds path args = (final, rewritten args scripts) := by
  induction rounds generalizing path scripts args with
  | zero => exact h.elim
  | succ rounds ih =>
      cases scripts with
      | nil =>
          obtain ⟨rfl, hbuf, hhead, helf⟩ := h
          exact followScripts_elf hhead helf args
      | cons script scripts =>
          obtain ⟨rfl, ⟨hbuf, hhead, hline⟩, hrest⟩ := h
          simp only [followScripts, hhead, isScript_of_scriptLine hline, if_true, parseLine_of_scriptLine hline]
          rw [ih hrest]
          exact congrArg (Prod.mk final) (rewritten_cons args _ _ scripts).symm

theorem Chain.ends (h : Chain caller v rounds path scripts final) : exhausts caller v rounds path = false := by
  induction rounds generalizing path scripts with
  | zero => exact h.elim
  | succ rounds ih =>
      cases scripts with
      | nil =>
          obtain ⟨rfl, hbuf, hhead, helf⟩ := h
          exact exhausts_elf hhead helf
      | cons script scripts =>
          obtain ⟨rfl, ⟨hbuf, hhead, hline⟩, hrest⟩ := h
          simp only [exhausts, hhead, Option.any_some, parseLine_of_scriptLine hline, ih hrest, Bool.and_false]

/-- The line is accepted: it names an interpreter, and there is room for the
new `argv`. -/
theorem line_accepted (hline : ScriptLine hbuf line) (hlen : hbuf.length ≤ 128) (hargs : argv.entries.length = args.length)
    (hcount : (frontTexts line path ++ args.drop 1).length ≤ 64) :
    ¬(line.interp = [] ∨ line.interp.length ≥ 128 ∨
      argv.entries.length + 1 + (if line.optarg = [] then 0 else 1) > execMaxArgs) := by
  rw [not_or, not_or]
  refine ⟨hline.interp.1, ?_, ?_⟩
  · obtain ⟨before, between, behind, rest, rfl, -⟩ := hline.layout
    simp only [List.length_append, List.length_cons, List.length_nil] at hlen
    omega
  · rw [List.length_append, List.length_drop, length_frontTexts] at hcount
    rw [execMaxArgs]
    omega

/-- Along a chain the loop ends, and with a file unless memory runs out. -/
theorem scriptLoop_halts (hv : Settled v) (h : Stage v w node d [] argv envv args envs) (hpath : Short path)
    (hchain : Chain caller v rounds path scripts final)
    (hcount : ∀ k ≤ scripts.length, (rewritten args (scripts.take k)).length ≤ 64) :
    (scriptLoop caller envv rounds w ⟨path, argv, node⟩).Halts fun q => q.2 = none → RunsOut w := by
  induction rounds generalizing w path scripts args d argv node with
  | zero => exact hchain.elim
  | succ rounds ih =>
      refine (closeNode_halts h.node).ran.bind fun x ⟨hx, hxmem⟩ => ?_
      have hshut := (h.closeNode hx).1
      obtain ⟨hbuf, hhead, hfirst⟩ : ∃ hbuf, fileHead v (caller rounds) path = some hbuf ∧
          (scripts = [] ∧ isElf hbuf = true ∨ ∃ line rest, scripts = (path, line) :: rest ∧ ScriptLine hbuf line ∧
            Chain caller v rounds line.interp rest final) := by
        cases scripts with
        | nil =>
            obtain ⟨-, hbuf, hhead, helf⟩ := hchain
            exact ⟨hbuf, hhead, .inl ⟨rfl, helf⟩⟩
        | cons script rest =>
            obtain ⟨rfl, ⟨hbuf, hhead, hline⟩, hrest⟩ := hchain
            exact ⟨hbuf, hhead, .inr ⟨script.2, rest, rfl, hline, hrest⟩⟩
      have hroot : RootOnly v.node x.node := by
        cases hshut.node with
        | shut hr => exact hr
      refine (vfsOpen_halts hv hshut.holding hroot hhead).ran.bind fun ⟨y, p⟩ ⟨hy, hymem, hnone⟩ => ?_
      have hopen := hshut.vfsOpen hv hy
      have hmem : y.mem = w.mem := hymem.trans hxmem
      have hruns : RunsOut y → RunsOut w := fun ⟨i, hi⟩ => ⟨i, hmem ▸ hi⟩
      cases p with
      | none =>
          obtain ⟨i, hi⟩ := hnone rfl
          exact (giveUp_halts hopen.holding).bind fun z _ => .ret fun _ => ⟨i, hxmem ▸ hi⟩
      | some a =>
          obtain ⟨d', hstage⟩ := hopen
          obtain ⟨r, hread⟩ : ∃ r, vfsRead y a 0 128 = .ret (hbuf, r) := by
            rw [fileHead_eq] at hhead
            obtain ⟨⟨bytes, r⟩, hfile, rfl⟩ := Option.map_eq_some_iff.mp hhead
            exact ⟨r, (open_reads_iff hv hshut.holding hroot hy).mpr hfile⟩
          dsimp only
          rw [hread, Exec.ret_bind]
          dsimp only
          rcases hfirst with ⟨rfl, helf⟩ | ⟨line, rest, rfl, hline, hrest⟩
          · rw [if_pos helf]
            exact .ret nofun
          · have hcount₁ : (frontTexts line path ++ args.drop 1).length ≤ 64 := by
              have h1 := hcount 1 (Nat.succ_pos _)
              rwa [List.take_succ_cons, List.take_zero, rewritten_cons] at h1
            have hscript := isScript_of_scriptLine hline
            have hgood := line_accepted hline (length_vfsRead hread) hstage.argvOk.length hcount₁
            have hparse := parseLine_of_scriptLine hline
            rw [if_neg (by rw [not_isElf_of_isScript hscript]; decide), if_pos hscript, hparse, if_neg hgood]
            have hneed := Nat.le_of_not_gt fun hgt => hgood (.inr (.inr hgt))
            have hshort := parseLine_short (length_vfsRead hread)
            rw [hparse] at hshort
            refine (rewriteArgv_halts hstage.holding).ran.bind fun ⟨z, q⟩ ⟨hz, hzmem, hnull⟩ => ?_
            obtain ⟨hnode, -, hq⟩ := hstage.rewriteArgv hshort hpath hneed hz
            cases q with
            | none =>
                refine Exec.Halts.bind (P := fun _ => True) ?_ fun u _ => .ret fun _ => hruns (hnull rfl)
                refine (closeNode_halts hq.node).ran.bind fun u ⟨hu, _⟩ => ?_
                exact (giveUp_halts (hq.closeNode hu).1.holding).mono fun _ _ => trivial
            | some argv' =>
                refine (ih hq hshort.1 hrest fun k hk => ?_).mono fun q hno hq' => ?_
                · have hk := hcount (k + 1) (Nat.succ_le_succ hk)
                  rwa [List.take_succ_cons, rewritten_cons] at hk
                · obtain ⟨i, hi⟩ := hno hq'
                  exact hruns ⟨i, hzmem ▸ hi⟩

end Chains

/-! ## The call -/

/-- Both vectors are in kernel buffers. -/
def CopiesVectors (s : State) (argvU envpU : Nat) (argv envv : Vec) (w : Vfs) : Prop :=
  ∃ w₁, execCopyVec s s.vfs argvU execMaxArgs = .ret (w₁, some argv) ∧
    execCopyVec s w₁ envpU execMaxEnvs = .ret (w, some envv)

section Rewriting

variable {s : State} {t : Task} {path argvU : Nat} {args : List CStr} {scripts : List (CStr × Line)} {final : CStr}

/-- The loop, entered with the vectors of the caller. -/
theorem scriptLoop_rewrites (hv : Settled s.vfs) (hargv : VectorAt s argvU args)
    (hchain : Chain s.caller s.vfs 5 (readPath s path) scripts final)
    (hcount : ∀ k ≤ scripts.length, (rewritten args (scripts.take k)).length ≤ 64) {envpU : Nat} {argv envv : Vec}
    {w : Vfs} (hcopies : CopiesVectors s argvU envpU argv envv w) :
    (scriptLoop s.caller envv 5 w ⟨readPath s path, argv, none⟩).Halts fun q =>
      match q.2 with
      | none => RunsOut w ∧ Restored s.vfs q.1 []
      | some script => script.path = final ∧ Found q.1 script.node false ∧
          script.argv.total = ((rewritten args scripts).map fun str => str.length + 1).sum ∧
          (∃ d envs, Stage s.vfs q.1 script.node d [] script.argv envv (rewritten args scripts) envs) ∧
          (closeNode q.1 script.node >>= fun x => giveUp x script.argv envv).Halts fun x => Restored s.vfs x [] := by
  obtain ⟨w₁, h₁, h₂⟩ := hcopies
  obtain ⟨args', envs, hargs', -, hstage⟩ := copyVecs_spec hv h₁ h₂
  obtain rfl := hargs'.unique hargv
  have hshort := short_readPath s path
  refine (scriptLoop_halts hv hstage hshort hchain hcount).ran.mono fun ⟨w', p⟩ ⟨hloop, hnone⟩ => ?_
  have hspec := scriptLoop_spec hv (s.caller 5, readPath s path) hstage hshort (fun h0 => absurd h0 (by decide)) hloop
  cases p with
  | none => exact ⟨hnone rfl, hspec⟩
  | some script =>
      obtain ⟨d, hstage', hpath, -, hfound, -⟩ := hspec
      rw [hchain.follow] at hstage' hpath
      rw [hchain.ends] at hfound
      exact ⟨hpath, hfound, hstage'.argvOk.total, ⟨d, envs, hstage'⟩, giveBack_halts hstage'⟩

/-- On the way through a chain of scripts `argv` is rewritten by each of them
in turn.  The loop ends with the result and what it stands on, the program
starts with it, and whichever way the call returns no vector is left. -/
theorem script_rewriting (hv : Settled s.vfs) (ht : s.task = some t) (hargv : VectorAt s argvU args)
    (hchain : Chain s.caller s.vfs 5 (readPath s path) scripts final)
    (hcount : ∀ k ≤ scripts.length, (rewritten args (scripts.take k)).length ≤ 64) (envpU : Nat) :
    (∀ argv envv w, CopiesVectors s argvU envpU argv envv w →
      (scriptLoop s.caller envv 5 w ⟨readPath s path, argv, none⟩).Halts fun q =>
        match q.2 with
        | none => RunsOut w ∧ Restored s.vfs q.1 []
        | some script => script.path = final ∧ Found q.1 script.node false ∧
            script.argv.total = ((rewritten args scripts).map fun str => str.length + 1).sum ∧
            (∃ d envs, Stage s.vfs q.1 script.node d [] script.argv envv (rewritten args scripts) envs) ∧
            (closeNode q.1 script.node >>= fun x => giveUp x script.argv envv).Halts fun x => Restored s.vfs x []) ∧
      ∀ s' r, sysExecveImpl s path argvU envpU = .ret (s', r) →
        (r = -1 ∧ Unchanged s.vfs s s') ∨
          ∃ envs, VectorAt s envpU envs ∧ Outcome s.vfs s s' t r final (rewritten args scripts) envs := by
  refine ⟨fun _ _ _ => scriptLoop_rewrites hv hargv hchain hcount, fun s' r he => ?_⟩
  rcases sysExecveImpl_spec hv ht he with hfail | ⟨args', envs, hargs', henvs, hout⟩
  · exact .inl hfail
  · obtain rfl := hargs'.unique hargv
    rw [hchain.follow] at hout
    exact .inr ⟨envs, henvs, hout⟩

end Rewriting

/-! ## A script to try it on -/

/-- The file system with the program `/a` and a script `/s`. -/
def scriptFiles : Vfs :=
  afterCalls [.openPath rootCaller (str "/a") 0x40, .write 1 0 (imageOf [127, 69, 76, 70]), .close 1,
    .openPath rootCaller (str "/s") 0x40, .write 3 0 (str "#! /a  x y \n"), .close 3]

theorem settled_scriptFiles : Settled scriptFiles := settled_afterCalls

/-- A machine with these files; at `0x8000000` is the name of the script, and
behind it the vector of `ab` and `cd`. -/
def scriptCaller : State :=
  machineOf scriptFiles [47, 115, 0, 0, 16, 0, 0, 8, 19, 0, 0, 8, 0, 0, 0, 0, 97, 98, 0, 99, 100, 0]

theorem scriptCaller_vector : VectorAt scriptCaller (userLoadAddr + 4) [str "ab", str "cd"] := by
  rw [VectorAt, if_neg (by decide)]
  refine ⟨fun j str hj => ?_, by decide⟩
  cases j with
  | zero =>
      cases hj
      exact ⟨by decide, by decide, by decide⟩
  | succ j =>
      cases j with
      | zero =>
          cases hj
          exact ⟨by decide, by decide, by decide⟩
      | succ j => cases hj

/-- The line of `/s`. -/
def lineOfScript : Line := ⟨str "/a", str "x y"⟩

theorem scriptLine_of_script : ScriptLine (str "#! /a  x y \n") lineOfScript := by
  refine ⟨?_, ?_, ?_, str " ", str "  ", str " ", str "\n", ?_⟩
  all_goals simp [lineOfScript, str, isBlank, endsLine]

theorem scriptCaller_chain : Chain scriptCaller.caller scriptCaller.vfs 5 (readPath scriptCaller userLoadAddr)
    [(str "/s", lineOfScript)] (str "/a") := by
  refine ⟨by decide +kernel, ⟨str "#! /a  x y \n", by decide +kernel, scriptLine_of_script⟩, rfl, ?_⟩
  exact ⟨imageOf [127, 69, 76, 70], by decide +kernel, by decide +kernel⟩

/-- The program finds the words of the line and the path of the script. -/
theorem script_is_rewritten : ∃ s' stack m st,
    sysExecveImpl scriptCaller userLoadAddr (userLoadAddr + 4) 0 = .ret (s', 0) ∧
      Decodes (sideBySide.addr stack) m s'.frame.esp [str "/a", str "x y", str "/s", str "cd"] [] st := by
  obtain ⟨s', hs'⟩ : ∃ s', sysExecveImpl scriptCaller userLoadAddr (userLoadAddr + 4) 0 = .ret (s', 0) :=
    exists_of_returned (by decide +kernel)
  have hcount : ∀ k ≤ [(str "/s", lineOfScript)].length,
      (rewritten [str "ab", str "cd"] ([(str "/s", lineOfScript)].take k)).length ≤ 64 := by decide +kernel
  obtain ⟨-, hcall⟩ := script_rewriting settled_scriptFiles rfl scriptCaller_vector scriptCaller_chain hcount 0
  rcases hcall s' 0 hs' with ⟨hr, -⟩ | ⟨envs, henvs, ⟨hr, -⟩ | ⟨-, w, stack, snap, hst⟩⟩
  · cases hr
  · cases hr
  · obtain ⟨m, st, -, hdec⟩ := hst.start
    rw [VectorAt, if_pos rfl] at henvs
    subst henvs
    exact ⟨s', stack, m, st, hs', hdec⟩

end LiteBSD.Execve
