/-
# `LiteBSD.Execve.Scripts` — the `#!` loop

Each round closes the script of the round before, opens the file that is now
to be run, and stops at an ELF file.  A script puts its interpreter, the rest
of its line and its own path in front of `argv[1..]`.

The loop makes five rounds and ends in three ways: it fails, it finds an ELF
file, or its rounds are used up; then what is open is the fifth script of a
chain (`exhausts`).  `scriptLoop_spec` says in which state each of them leaves
memory, the open file and the two vectors.
-/
import LiteBSD.Execve.Reading
import LiteBSD.Execve.Vectors
import Mathlib.Data.List.TakeWhile

namespace LiteBSD.Execve

/-! ## What the loop comes to -/

/-- The file to run and its arguments after the scripts that `path` leads
through. -/
def followScripts (caller : Nat → Caller) (v : Vfs) : Nat → CStr → List CStr → CStr × List CStr
  | 0, path, args => (path, args)
  | rounds + 1, path, args =>
      match fileHead v (caller rounds) path with
      | none => (path, args)
      | some hbuf =>
          if isScript hbuf then
            followScripts caller v rounds (parseLine hbuf).interp
              (frontTexts (parseLine hbuf) path ++ args.drop 1)
          else (path, args)

/-- The file that is open behind the loop, and who has opened it; `last` is the
one of the round before. -/
def sourceOf (caller : Nat → Caller) (v : Vfs) : Nat → Caller × CStr → CStr → Caller × CStr
  | 0, last, _ => last
  | rounds + 1, _, path =>
      match fileHead v (caller rounds) path with
      | none => (caller rounds, path)
      | some hbuf =>
          if isScript hbuf then sourceOf caller v rounds (caller rounds, path) (parseLine hbuf).interp
          else (caller rounds, path)

/-- Each of the files opened in so many rounds is a script. -/
def exhausts (caller : Nat → Caller) (v : Vfs) : Nat → CStr → Bool
  | 0, _ => true
  | rounds + 1, path =>
      (fileHead v (caller rounds) path).any fun hbuf =>
        isScript hbuf && exhausts caller v rounds (parseLine hbuf).interp

/-- Whether a node is open between two steps of `execve`, and its buffer. -/
inductive MayOpen (v w : Vfs) : Option Nat → List Nat → Prop
  | shut : RootOnly v.node w.node → MayOpen v w none []
  | opened {a : Nat} {d : List Nat} : Opened v w a d → MayOpen v w (some a) d

/-- The state between two steps of `execve`: `v` is the one before the call,
`d` is the buffer of the open node and `more` are those for the task. -/
structure Stage (v w : Vfs) (node : Option Nat) (d more : List Nat) (argv envv : Vec) (args envs : List CStr) :
    Prop where
  holding : Holding v w (bufs argv.entries ++ (bufs envv.entries ++ (d ++ more)))
  node : MayOpen v w node d
  argvOk : argv.Accepted args
  envvOk : envv.Accepted envs
  args : Holds w argv.entries args
  envs : Holds w envv.entries envs

/-- Nothing is left but the buffers `more`. -/
def Restored (v w : Vfs) (more : List Nat) : Prop := Holding v w more ∧ RootOnly v.node w.node

section Steps

variable {v w w' : Vfs} {node : Option Nat} {d more : List Nat} {argv envv : Vec} {args envs : List CStr}

/-- The buffers of the vectors are not the one of the open file. -/
theorem Stage.apart (h : Stage v w node d more argv envv args envs) {x : Nat}
    (hx : x ∈ bufs argv.entries ∨ x ∈ bufs envv.entries) : x ∉ d := by
  have hnd := h.holding.nodup
  rw [← List.append_assoc] at hnd
  exact fun hd => List.disjoint_of_nodup_append hnd (List.mem_append.mpr hx) (List.mem_append_left more hd)

/-- `if (node) vfs_close(node)` -/
theorem Stage.closeNode (h : Stage v w node d more argv envv args envs) (hc : closeNode w node = .ret w') :
    Stage v w' none [] more argv envv args envs ∧ ∀ b ∈ more, w'.buf b = w.buf b := by
  cases h.node with
  | shut hr =>
      cases hc
      exact ⟨h, fun _ _ => rfl⟩
  | opened ho =>
      obtain ⟨⟨x, r⟩, hx, hc⟩ := Exec.bind_eq_ret.mp hc
      cases hc
      have hperm : (bufs argv.entries ++ (bufs envv.entries ++ (d ++ more))).Perm
          (d ++ (bufs argv.entries ++ (bufs envv.entries ++ ([] ++ more)))) := by
        rw [List.perm_iff_count]
        intro x
        simp only [List.count_append, List.count_nil]
        omega
      obtain ⟨hhold, hr, hbuf⟩ := vfsClose_spec ho (h.holding.perm hperm) hx
      refine ⟨⟨hhold, .shut hr, h.argvOk, h.envvOk, h.args.keep fun b hb => hbuf b (h.apart (.inl hb)),
        h.envs.keep fun b hb => hbuf b (h.apart (.inr hb))⟩, fun b hb => hbuf b fun hd => ?_⟩
      -- what is held is held once
      have hnd := h.holding.nodup
      rw [← List.append_assoc] at hnd
      exact List.disjoint_of_nodup_append (List.Nodup.of_append_right hnd) hd hb

theorem Stage.vfsOpen (hv : Settled v) (h : Stage v w none [] more argv envv args envs) {c : Caller} {path : CStr}
    {p : Option Nat} :
    vfsOpen w c path 0 = .ret (w', p) →
      match p with
      | none => Stage v w' none [] more argv envv args envs
      | some a => ∃ d, Stage v w' (some a) d more argv envv args envs := by
  intro ho
  have hargs : ∀ b ∈ bufs argv.entries, b < w.nextObj := fun b hb =>
    (h.holding.fresh b (List.mem_append_left _ hb)).2
  have henvs : ∀ b ∈ bufs envv.entries, b < w.nextObj := fun b hb =>
    (h.holding.fresh b (List.mem_append_right _ (List.mem_append_left _ hb))).2
  cases h.node with
  | shut hr =>
      obtain ⟨hbuf, _, hp⟩ := vfsOpen_spec hv h.holding hr ho
      have ha := h.args.keep fun b hb => hbuf b (hargs b hb)
      have he := h.envs.keep fun b hb => hbuf b (henvs b hb)
      cases p with
      | none => exact ⟨hp.1, .shut hp.2, h.argvOk, h.envvOk, ha, he⟩
      | some a =>
          obtain ⟨d, hopen, hhold⟩ := hp
          have hperm : (d ++ (bufs argv.entries ++ (bufs envv.entries ++ ([] ++ more)))).Perm
              (bufs argv.entries ++ (bufs envv.entries ++ (d ++ more))) := by
            rw [List.perm_iff_count]
            intro x
            simp only [List.count_append, List.count_nil]
            omega
          exact ⟨d, hhold.perm hperm, .opened hopen, h.argvOk, h.envvOk, ha, he⟩

theorem Stage.giveUp (h : Stage v w none [] more argv envv args envs) (hg : giveUp w argv envv = .ret w') :
    Restored v w' more := by
  obtain ⟨hhold, hfreed⟩ := giveUp_spec h.holding hg
  cases h.node with
  | shut hr => exact ⟨hhold, hfreed.node ▸ hr⟩

theorem Stage.closeAndGiveUp {a : Nat} (h : Stage v w (some a) d more argv envv args envs)
    (hg : closeAndGiveUp w a argv envv = .ret w') : Restored v w' more := by
  obtain ⟨x, hx, hg⟩ := Exec.bind_eq_ret.mp hg
  exact (h.closeNode hx).1.giveUp hg

/-- The strings in front are made, or none of them stays. -/
theorem newStrings_spec {texts done : List CStr} {made : List KString} {l : List Nat} {p : Option (List KString)}
    (h : Holding v w (bufs made ++ l)) (hm : Holds w made done) (hlens : made.map KString.len = done.map List.length) :
    newStrings w texts made = .ret (w', p) → w'.node = w.node ∧ (∀ x ∈ l, w'.buf x = w.buf x) ∧
      match p with
      | none => Holding v w' l
      | some made' => Holding v w' (bufs made' ++ l) ∧ Holds w' made' (done ++ texts) ∧
          made'.map KString.len = (done ++ texts).map List.length := by
  induction texts generalizing w made done with
  | nil =>
      intro hn
      cases hn
      refine ⟨rfl, fun _ _ => rfl, h, ?_, ?_⟩
      · rwa [List.append_nil]
      · rwa [List.append_nil]
  | cons text texts ih =>
      intro hn
      obtain ⟨⟨x, q⟩, hx, hn⟩ := Exec.bind_eq_ret.mp hn
      obtain ⟨hkeep, hq⟩ := kmallocBytes_spec h hx
      have hold : ∀ b ∈ bufs made ++ l, x.buf b = w.buf b := fun b hb => hkeep.buf b (h.fresh b hb).2
      cases q with
      | none =>
          obtain ⟨y, hy, hn⟩ := Exec.bind_eq_ret.mp hn
          cases hn
          obtain ⟨hhold, hfreed⟩ := execFreeVec_spec hq hy
          refine ⟨hfreed.node.trans hkeep.node, fun b hb => ?_, hhold⟩
          refine (hfreed.buf b fun hmade => ?_).trans (hold b (List.mem_append_right _ hb))
          exact List.disjoint_of_nodup_append h.nodup hmade hb
      | some b =>
          obtain ⟨hhold, _, hstores⟩ := hq
          have hperm : (b :: (bufs made ++ l)).Perm (bufs (made ++ [KString.mk b text.length]) ++ l) := by
            rw [bufs, bufs, List.map_append, List.append_assoc]
            exact List.perm_middle.symm
          have hmade : Holds x (made ++ [KString.mk b text.length]) (done ++ [text]) :=
            List.rel_append (hm.keep fun b hb => hold b (List.mem_append_left _ hb)) (.cons hstores .nil)
          have hlens' : (made ++ [KString.mk b text.length]).map KString.len = (done ++ [text]).map List.length := by
            rw [List.map_append, List.map_append, hlens]
            rfl
          obtain ⟨hnode, hbuf, hp⟩ := ih (hhold.perm hperm) hmade hlens' hn
          rw [List.append_assoc, List.singleton_append] at hp
          exact ⟨hnode.trans hkeep.node,
            fun b hb => (hbuf b hb).trans (hold b (List.mem_append_right _ hb)), hp⟩

theorem Opened.congr {a : Nat} (h : Opened v w a d) (hnode : w'.node = w.node) : Opened v w' a d := by
  cases h with
  | root hr => exact .root (hnode ▸ hr)
  | real hroot hr hg hs hpos he => exact .real hroot hr hg hs hpos (hnode.trans he)
  | synth hroot hr hg hs hone he => exact .synth hroot hr hg hs hone (hnode.trans he)

theorem MayOpen.congr (h : MayOpen v w node d) (hnode : w'.node = w.node) : MayOpen v w' node d := by
  cases h with
  | shut hr => exact .shut (hnode ▸ hr)
  | opened ho => exact .opened (ho.congr hnode)

/-- What a string must be like to be put on a stack. -/
def Short (str : CStr) : Prop := str.length < execMaxStrlen ∧ (0 : UInt8) ∉ str

theorem accepted_of_short {entries : List KString} {strs : List CStr} (hcount : strs.length ≤ 64)
    (hshort : ∀ str ∈ strs, Short str) (hlens : entries.map KString.len = strs.map List.length) :
    Vec.Accepted ⟨entries, (entries.map fun k => k.len + 1).sum⟩ strs := by
  refine ⟨hcount, fun str hs => (hshort str hs).1, fun str hs => (hshort str hs).2, hlens, ?_⟩
  have hsum : entries.map (fun k => k.len + 1) = strs.map fun str => str.length + 1 := by
    have := congrArg (List.map (· + 1)) hlens
    rwa [List.map_map, List.map_map] at this
  exact congrArg List.sum hsum

theorem mem_frontTexts {line : Line} {path str : CStr} (h : str ∈ frontTexts line path) :
    str = line.interp ∨ str = line.optarg ∨ str = path := by
  unfold frontTexts at h
  split at h
  · rcases List.mem_cons.mp h with rfl | h
    · exact .inl rfl
    · exact .inr (.inr (List.mem_singleton.mp h))
  · rcases List.mem_cons.mp h with rfl | h
    · exact .inl rfl
    · rcases List.mem_cons.mp h with rfl | h
      · exact .inr (.inl rfl)
      · exact .inr (.inr (List.mem_singleton.mp h))

theorem short_frontTexts {line : Line} {path : CStr} (hline : Short line.interp ∧ Short line.optarg)
    (hpath : Short path) : ∀ str ∈ frontTexts line path, Short str := by
  intro str hstr
  rcases mem_frontTexts hstr with rfl | rfl | rfl
  · exact hline.1
  · exact hline.2
  · exact hpath

theorem length_frontTexts (line : Line) (path : CStr) :
    (frontTexts line path).length = 2 + if line.optarg = [] then 0 else 1 := by
  unfold frontTexts
  split <;> rfl

/-- The strings `made` take the place of the first one. -/
theorem perm_bufs_replaced (made entries : List KString) (l : List Nat) :
    (bufs made ++ (bufs entries ++ l)).Perm (bufs (entries.take 1) ++ (bufs (made ++ entries.drop 1) ++ l)) := by
  have hsplit : bufs entries = bufs (entries.take 1) ++ bufs (entries.drop 1) := by
    rw [bufs, bufs, bufs, ← List.map_append, List.take_append_drop]
  have happ : bufs (made ++ entries.drop 1) = bufs made ++ bufs (entries.drop 1) := List.map_append
  rw [hsplit, happ, List.perm_iff_count]
  intro x
  simp only [List.count_append]
  omega

/-- The vector of the interpreter takes the place of `argv`, or nothing has
changed. -/
theorem Stage.rewriteArgv (h : Stage v w node d more argv envv args envs) {line : Line} {path : CStr} {p : Option Vec}
    (hline : Short line.interp ∧ Short line.optarg) (hpath : Short path)
    (hneed : argv.entries.length + 1 + (if line.optarg = [] then 0 else 1) ≤ execMaxArgs) :
    rewriteArgv w line path argv = .ret (w', p) → w'.node = w.node ∧ (∀ b ∈ d, w'.buf b = w.buf b) ∧
      match p with
      | none => Stage v w' node d more argv envv args envs
      | some argv' => Stage v w' node d more argv' envv (frontTexts line path ++ args.drop 1) envs := by
  intro hr
  obtain ⟨⟨x, made⟩, hx, hr⟩ := Exec.bind_eq_ret.mp hr
  have hstart : Holding v w (bufs [] ++ (bufs argv.entries ++ (bufs envv.entries ++ (d ++ more)))) := h.holding
  have hempty : Holds w [] [] := .nil
  obtain ⟨hnode, hbuf, hmade⟩ := newStrings_spec hstart hempty rfl hx
  have hargs : ∀ b ∈ bufs argv.entries, x.buf b = w.buf b := fun b hb => hbuf b (List.mem_append_left _ hb)
  have henvs : ∀ b ∈ bufs envv.entries, x.buf b = w.buf b := fun b hb =>
    hbuf b (List.mem_append_right _ (List.mem_append_left _ hb))
  have hown : ∀ b ∈ d, x.buf b = w.buf b := fun b hb =>
    hbuf b (List.mem_append_right _ (List.mem_append_right _ (List.mem_append_left _ hb)))
  cases made with
  | none =>
      cases hr
      exact ⟨hnode, hown, hmade, h.node.congr hnode, h.argvOk, h.envvOk, h.args.keep hargs, h.envs.keep henvs⟩
  | some made =>
      obtain ⟨hhold, hholds, hlens⟩ := hmade
      obtain ⟨y, hy, hr⟩ := Exec.bind_eq_ret.mp hr
      cases hr
      have hperm := perm_bufs_replaced made argv.entries (bufs envv.entries ++ (d ++ more))
      obtain ⟨hhold', hfreed⟩ := execFreeVec_spec (hhold.perm hperm) hy
      have hkept : ∀ b ∈ bufs (made ++ argv.entries.drop 1) ++ (bufs envv.entries ++ (d ++ more)), w'.buf b = x.buf b :=
        fun b hb => hfreed.buf b fun hfree =>
          List.disjoint_of_nodup_append (hhold.perm hperm).nodup hfree hb
      have hrest : Holds x (argv.entries.drop 1) (args.drop 1) := List.forall₂_drop 1 (h.args.keep hargs)
      have hlens' : (made ++ argv.entries.drop 1).map KString.len =
          (frontTexts line path ++ args.drop 1).map List.length := by
        rw [List.map_append, List.map_append, hlens, List.map_drop, List.map_drop, h.argvOk.lens]
        rfl
      have hcount : (frontTexts line path ++ args.drop 1).length ≤ 64 := by
        rw [h.argvOk.length, execMaxArgs] at hneed
        have hopt : (if line.optarg = [] then 0 else 1) ≤ 1 := by split <;> decide
        rw [List.length_append, List.length_drop, length_frontTexts]
        omega
      refine ⟨hfreed.node.trans hnode, fun b hb => ?_, hhold', h.node.congr (hfreed.node.trans hnode),
        accepted_of_short hcount ?_ hlens', h.envvOk, ?_, ?_⟩
      · exact (hkept b (List.mem_append_right _ (List.mem_append_right _ (List.mem_append_left _ hb)))).trans
          (hown b hb)
      · intro str hstr
        rcases List.mem_append.mp hstr with hstr | hstr
        · exact short_frontTexts hline hpath str hstr
        · have hmem := List.mem_of_mem_drop hstr
          exact ⟨h.argvOk.short str hmem, h.argvOk.noNul str hmem⟩
      · have hall : Holds x (made ++ argv.entries.drop 1) (frontTexts line path ++ args.drop 1) :=
          List.rel_append hholds hrest
        exact hall.keep fun b hb => hkept b (List.mem_append_left _ hb)
      · exact (h.envs.keep henvs).keep fun b hb =>
          hkept b (List.mem_append_right _ (List.mem_append_left _ hb))

end Steps

/-! ## The rounds -/

theorem not_isElf_of_isScript {hbuf : List UInt8} (h : isScript hbuf) : isElf hbuf = false := by
  have h2 := of_decide_eq_true h
  refine decide_eq_false fun h4 => ?_
  have := congrArg (List.take 2) h4
  rw [List.take_take, Nat.min_eq_left (by decide), h2] at this
  exact absurd this (by decide)

theorem not_isScript_of_isElf {hbuf : List UInt8} (h : isElf hbuf = true) : isScript hbuf = false := by
  rw [Bool.eq_false_iff]
  intro hscript
  rw [not_isElf_of_isScript hscript] at h
  cases h

/-- The chain ends at a program, with the arguments as they are. -/
theorem followScripts_elf {caller : Nat → Caller} {v : Vfs} {rounds : Nat} {path : CStr} {hbuf : List UInt8}
    (hhead : fileHead v (caller rounds) path = some hbuf) (helf : isElf hbuf = true) (args : List CStr) :
    followScripts caller v (rounds + 1) path args = (path, args) := by
  have hscript := not_isScript_of_isElf helf
  simp only [followScripts, hhead, hscript, Bool.false_eq_true, if_false]

theorem exhausts_elf {caller : Nat → Caller} {v : Vfs} {rounds : Nat} {path : CStr} {hbuf : List UInt8}
    (hhead : fileHead v (caller rounds) path = some hbuf) (helf : isElf hbuf = true) :
    exhausts caller v (rounds + 1) path = false := by
  have hscript := not_isScript_of_isElf helf
  simp only [exhausts, hhead, Option.any_some, hscript, Bool.false_and]

theorem length_vfsRead {v : Vfs} {a offset count : Nat} {bytes : List UInt8} {r : Int}
    (h : vfsRead v a offset count = .ret (bytes, r)) : bytes.length ≤ count := by
  have hread : ∀ (m : Buf) (n k : Nat), (m.read offset (min n k)).length ≤ n := by
    intro m n k
    rw [Buf.read, List.length_map, List.length_range]
    exact Nat.min_le_left _ _
  obtain ⟨n, _, h⟩ := Exec.bind_eq_ret.mp h
  split at h
  · cases h
    exact Nat.zero_le _
  · split at h
    · cases h
      exact Nat.zero_le _
    · split at h
      · cases h
        exact Nat.zero_le _
      · split at h
        · cases h
          exact Nat.le_of_eq (List.length_replicate ..)
        · split at h
          · split at h
            · cases h
              exact Nat.zero_le _
            · split at h
              · cases h
                exact Nat.zero_le _
              · cases h
                exact hread _ _ _
          · split at h
            · cases h
              exact Nat.zero_le _
            · dsimp only at h
              split at h
              · cases h
                exact Nat.zero_le _
              · split at h
                · cases h
                · obtain ⟨m, _, h⟩ := Exec.bind_eq_ret.mp h
                  split at h
                  · cases h
                    exact hread _ _ _
                  · cases h

theorem parseLine_noNul (hbuf : List UInt8) : 0 ∉ (parseLine hbuf).interp ∧ 0 ∉ (parseLine hbuf).optarg := by
  have hends : ∀ {c : UInt8}, (!endsLine c) = true → c ≠ 0 := by
    rintro _ hc rfl
    exact absurd hc (by decide)
  refine ⟨fun hz => ?_, fun hz => ?_⟩
  · have := List.mem_takeWhile_imp hz
    rw [Bool.and_eq_true] at this
    exact hends this.1 rfl
  · have hmem := (List.dropWhile_sublist _).subset (List.mem_reverse.mp hz)
    have := List.mem_takeWhile_imp (List.mem_reverse.mp hmem)
    exact hends this rfl

/-- The texts of a `#!` line are short. -/
theorem parseLine_short {hbuf : List UInt8} (hlen : hbuf.length ≤ 128) :
    Short (parseLine hbuf).interp ∧ Short (parseLine hbuf).optarg := by
  have hmax : 128 < execMaxStrlen := by decide
  have hblank : ∀ {l : List UInt8}, (l.reverse.dropWhile isBlank).reverse.Sublist l := by
    intro l
    have := (List.dropWhile_sublist isBlank (l := l.reverse)).reverse
    rwa [List.reverse_reverse] at this
  have hrest : ((hbuf.drop 2).dropWhile isBlank).Sublist hbuf :=
    (List.dropWhile_sublist _).trans (List.drop_sublist _ _)
  refine ⟨⟨?_, (parseLine_noNul hbuf).1⟩, ?_, (parseLine_noNul hbuf).2⟩
  · exact Nat.lt_of_le_of_lt (((List.takeWhile_sublist _).trans hrest).length_le.trans hlen) hmax
  · refine Nat.lt_of_le_of_lt (List.Sublist.length_le ?_ |>.trans hlen) hmax
    exact hblank.trans ((List.takeWhile_sublist _).trans ((List.dropWhile_sublist _).trans
      ((List.drop_sublist _ _).trans hrest)))

section Loop

variable {v w w' : Vfs} {caller : Nat → Caller} {envv : Vec} {args envs : List CStr} {d : List Nat}

/-- What is open at the end of the loop. -/
def Found (w : Vfs) (node : Option Nat) (exhausted : Bool) : Prop :=
  ∃ a hbuf r, node = some a ∧ vfsRead w a 0 128 = .ret (hbuf, r) ∧
    if exhausted then isScript hbuf = true else isElf hbuf = true

/-- What is open reads as the file `source`. -/
def NodeShows (v w : Vfs) (node : Option Nat) (source : Caller × CStr) : Prop := ∀ a, node = some a → Shows v w a source

/-- The `#!` loop, from a round on. -/
theorem scriptLoop_spec (hv : Settled v) (last : Caller × CStr) {rounds : Nat} {s : Script} {p : Option Script}
    (h : Stage v w s.node d [] s.argv envv args envs) (hpath : Short s.path)
    (hfound : rounds = 0 → Found w s.node true ∧ NodeShows v w s.node last) :
    scriptLoop caller envv rounds w s = .ret (w', p) →
      match p with
      | none => Restored v w' []
      | some s' => ∃ d', Stage v w' s'.node d' [] s'.argv envv (followScripts caller v rounds s.path args).2 envs ∧
          s'.path = (followScripts caller v rounds s.path args).1 ∧ Short s'.path ∧
          Found w' s'.node (exhausts caller v rounds s.path) ∧
          NodeShows v w' s'.node (sourceOf caller v rounds last s.path) := by
  induction rounds generalizing w s args d last with
  | zero =>
      intro hl
      cases hl
      exact ⟨d, h, rfl, hpath, hfound rfl⟩
  | succ rounds ih =>
      intro hl
      obtain ⟨x, hx, hl⟩ := Exec.bind_eq_ret.mp hl
      have hshut := (h.closeNode hx).1
      obtain ⟨⟨y, q⟩, hy, hl⟩ := Exec.bind_eq_ret.mp hl
      have hopen := hshut.vfsOpen hv hy
      cases q with
      | none =>
          obtain ⟨z, hz, hl⟩ := Exec.bind_eq_ret.mp hl
          cases hl
          exact hopen.giveUp hz
      | some a =>
          obtain ⟨d', hstage⟩ := hopen
          obtain ⟨⟨hbuf, r⟩, hread, hl⟩ := Exec.bind_eq_ret.mp hl
          have hshows : Shows v y a (caller rounds, s.path) := by
            cases hshut.node with
            | shut hr => exact shows_of_open hv hshut.holding hr hy
          have hhead : fileHead v (caller rounds) s.path = some hbuf := by
            rw [fileHead_eq, hshows 0 128 _ hread]
            rfl
          dsimp only at hl
          split at hl
          · rename_i helf
            cases hl
            have hscript := not_isScript_of_isElf helf
            have hsource : sourceOf caller v (rounds + 1) last s.path = (caller rounds, s.path) := by
              simp only [sourceOf, hhead, hscript, Bool.false_eq_true, if_false]
            rw [followScripts_elf hhead helf, exhausts_elf hhead helf, hsource]
            refine ⟨d', hstage, rfl, hpath, ⟨a, hbuf, r, rfl, hread, helf⟩, fun a' ha' => ?_⟩
            cases ha'
            exact hshows
          · split at hl
            · rename_i hscript
              by_cases hbad : (parseLine hbuf).interp = [] ∨ (parseLine hbuf).interp.length ≥ 128 ∨
                  s.argv.entries.length + 1 + (if (parseLine hbuf).optarg = [] then 0 else 1) > execMaxArgs
              · rw [if_pos hbad] at hl
                obtain ⟨z, hz, hl⟩ := Exec.bind_eq_ret.mp hl
                cases hl
                exact hstage.closeAndGiveUp hz
              · rw [if_neg hbad] at hl
                obtain ⟨⟨z, q⟩, hz, hl⟩ := Exec.bind_eq_ret.mp hl
                have hline := parseLine_short (length_vfsRead hread)
                have hneed := Nat.le_of_not_gt fun hgt => hbad (.inr (.inr hgt))
                obtain ⟨hnode, hbuf', hq⟩ := hstage.rewriteArgv hline hpath hneed hz
                cases q with
                | none =>
                    obtain ⟨u, hu, hl⟩ := Exec.bind_eq_ret.mp hl
                    cases hl
                    exact hq.closeAndGiveUp hu
                | some argv =>
                    have hstill : ∀ offset count, vfsRead z a offset count = vfsRead y a offset count := by
                      cases hstage.node with
                      | opened hopened => exact hopened.read hv hstage.holding hq.holding hnode hbuf'
                    have hfollow : followScripts caller v (rounds + 1) s.path args =
                        followScripts caller v rounds (parseLine hbuf).interp
                          (frontTexts (parseLine hbuf) s.path ++ args.drop 1) := by
                      simp only [followScripts, hhead, hscript, if_true]
                    have hex : exhausts caller v (rounds + 1) s.path =
                        exhausts caller v rounds (parseLine hbuf).interp := by
                      simp only [exhausts, hhead, Option.any_some, hscript, Bool.true_and]
                    have hsource : sourceOf caller v (rounds + 1) last s.path =
                        sourceOf caller v rounds (caller rounds, s.path) (parseLine hbuf).interp := by
                      simp only [sourceOf, hhead, hscript, if_true]
                    rw [hfollow, hex, hsource]
                    refine ih _ hq hline.1 (fun _ => ⟨⟨a, hbuf, r, rfl, (hstill 0 128).trans hread, hscript⟩, ?_⟩) hl
                    intro a' ha'
                    cases ha'
                    exact hshows.congr hstill
            · obtain ⟨z, hz, hl⟩ := Exec.bind_eq_ret.mp hl
              cases hl
              exact hstage.closeAndGiveUp hz

end Loop

end LiteBSD.Execve
