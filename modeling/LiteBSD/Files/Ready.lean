/-
# `LiteBSD.Files.Ready` — what `sys_poll` reports, and when `sys_read` waits

`sys_poll` looks at one thing: a byte in the pipe, a key in the keyboard ring,
or nothing at all for a node.  `sys_read` goes on until it has what it was
asked for: the whole count of a pipe that blocks and has a writer, a whole
line of a terminal in canonical mode.

`LineEnds` says which keys end a line; it knows only the line, as a list, and
the room there is for it, neither the buffer of the caller nor the echo.
`poll_matches_read_iff` is the condition under which the two calls agree, for
every state, descriptor and count.
-/
import LiteBSD.Files.Kinds

namespace LiteBSD.Files

open Lib

/-! ## A line that is edited -/

/-- The keys that end a line: LF, CR, `^D` and `^C`. -/
def endsLine (c : UInt8) : Bool := c = 10 ∨ c = 13 ∨ c = 4 ∨ c = 3

/-- `^W` -/
def dropWord (line : List UInt8) : List UInt8 :=
  ((line.reverse.dropWhile (· = 32)).dropWhile (· ≠ 32)).reverse

/-- What any other key but escape does to the line. -/
def editLine (line : List UInt8) (c : UInt8) : List UInt8 :=
  if c = 8 ∨ c = 127 then line.dropLast
  else if c = 21 then []
  else if c = 23 then dropWord line
  else if c = 12 then line
  else line ++ [c]

/-- The keys, typed behind `line`, end it, or there are enough of them to
leave no room. -/
inductive LineEnds (room : Nat) : List UInt8 → List UInt8 → Prop
  | full {keys line : List UInt8} : room ≤ line.length → LineEnds room keys line
  | stop {c : UInt8} {keys line : List UInt8} : endsLine c → LineEnds room (c :: keys) line
  | escape {keys line : List UInt8} : LineEnds room (dropEscape keys) line →
      LineEnds room (27 :: keys) line
  | edit {c : UInt8} {keys line : List UInt8} : ¬endsLine c → c ≠ 27 →
      LineEnds room keys (editLine line c) → LineEnds room (c :: keys) line

section Lines

variable {room : Nat} {c : UInt8} {keys line : List UInt8}

theorem lineEnds_nil (h : line.length < room) : ¬LineEnds room [] line := by
  intro hl
  cases hl with
  | full hfull => exact Nat.not_le.mpr h hfull

theorem lineEnds_escape (h : line.length < room) :
    LineEnds room (27 :: keys) line ↔ LineEnds room (dropEscape keys) line := by
  refine ⟨fun hl => ?_, .escape⟩
  cases hl with
  | full hfull => exact absurd hfull (Nat.not_le.mpr h)
  | stop hstop => exact absurd hstop (by decide)
  | escape hl => exact hl
  | edit _ hne _ => exact absurd rfl hne

theorem lineEnds_edit (h : line.length < room) (hstop : ¬endsLine c) (hesc : c ≠ 27) :
    LineEnds room (c :: keys) line ↔ LineEnds room keys (editLine line c) := by
  refine ⟨fun hl => ?_, .edit hstop hesc⟩
  cases hl with
  | full hfull => exact absurd hfull (Nat.not_le.mpr h)
  | stop hs => exact absurd hs hstop
  | escape _ => exact absurd rfl hesc
  | edit _ _ hl => exact hl

theorem length_dropSequence (keys : List UInt8) : (dropSequence keys).length ≤ keys.length := by
  induction keys with
  | nil => exact Nat.le_refl _
  | cons c rest ih =>
      unfold dropSequence
      split
      · exact Nat.le_succ _
      · exact Nat.le_succ_of_le ih

theorem length_dropEscape (keys : List UInt8) : (dropEscape keys).length ≤ keys.length := by
  cases keys with
  | nil => exact Nat.le_refl _
  | cons c rest =>
      rw [dropEscape]
      split
      · exact Nat.le_succ_of_le (length_dropSequence rest)
      · exact Nat.le_succ _

/-- The line in the caller's buffer. -/
def lineOf (buf : Nat → UInt8) (i : Nat) : List UInt8 := (List.range i).map buf

@[simp] theorem length_lineOf (buf : Nat → UInt8) (i : Nat) : (lineOf buf i).length = i := by
  simp [lineOf]

theorem lineOf_succ (buf : Nat → UInt8) (i : Nat) : lineOf buf (i + 1) = lineOf buf i ++ [buf i] := by
  simp [lineOf, List.range_succ]

theorem lineOf_update (buf : Nat → UInt8) (i : Nat) (c : UInt8) :
    lineOf (Function.update buf i c) (i + 1) = lineOf buf i ++ [c] := by
  rw [lineOf_succ, Function.update_self]
  congr 1
  refine List.map_congr_left fun j hj => ?_
  exact Function.update_of_ne (Nat.ne_of_lt (List.mem_range.mp hj)) _ _

theorem lineOf_pred (buf : Nat → UInt8) (i : Nat) :
    lineOf buf (i - 1) = (lineOf buf i).dropLast := by
  cases i with
  | zero => rfl
  | succ i => rw [lineOf_succ, List.dropLast_concat, Nat.add_sub_cancel]

theorem lineOf_eraseBack (p : UInt8 → Bool) (buf : Nat → UInt8) (i : Nat) :
    lineOf buf (eraseBack p buf i) = ((lineOf buf i).reverse.dropWhile p).reverse := by
  induction i with
  | zero => rfl
  | succ i ih =>
      rw [eraseBack, lineOf_succ, List.reverse_append, List.reverse_singleton,
        List.singleton_append, List.dropWhile_cons]
      split
      · exact ih
      · rw [List.reverse_cons, List.reverse_reverse, lineOf_succ]

theorem lineOf_eraseWord (buf : Nat → UInt8) (i : Nat) :
    lineOf buf (eraseWord buf i) = dropWord (lineOf buf i) := by
  rw [eraseWord, lineOf_eraseBack, lineOf_eraseBack, List.reverse_reverse, dropWord]

end Lines

/-! ## The keyboard -/

/-- The same keys are still to be read. -/
structure SameKeys (con con' : Console) : Prop where
  typed : con'.typed = con.typed
  coming : con'.coming = con.coming

section Keys

variable {con con' con'' : Console}

theorem SameKeys.trans (h : SameKeys con con') (h' : SameKeys con' con'') : SameKeys con con'' :=
  ⟨h'.typed.trans h.typed, h'.coming.trans h.coming⟩

theorem sameKeys_echoChar (con : Console) (c : UInt8) : SameKeys con (con.echoChar c) := by
  unfold Console.echoChar
  split
  · exact ⟨rfl, rfl⟩
  · exact ⟨rfl, rfl⟩

theorem sameKeys_echoErase (con : Console) (n : Nat) : SameKeys con (con.echoErase n) := by
  induction n generalizing con with
  | zero => exact ⟨rfl, rfl⟩
  | succ n ih =>
      have h₁ := sameKeys_echoChar con 8
      have h₂ := h₁.trans (sameKeys_echoChar _ 32)
      exact (h₂.trans (sameKeys_echoChar _ 8)).trans (ih _)

theorem sameKeys_echoLine (con : Console) (buf : Nat → UInt8) (i : Nat) :
    SameKeys con (con.echoLine buf i) := by
  unfold Console.echoLine
  induction i generalizing con with
  | zero => exact ⟨rfl, rfl⟩
  | succ i ih =>
      rw [List.range_succ, List.foldl_append]
      exact (ih con).trans (sameKeys_echoChar _ _)

/-- The call waits for ever: nothing will change what it waits for. -/
def Waits {α : Type} (x : Exec α) : Prop := x = .hang

@[simp] theorem not_waits_ret {α : Type} (a : α) : ¬Waits (Exec.ret a) := nofun

/-- A canonical read returns when the keys that are there end its line. -/
theorem cookedLoop_waits {count : Nat} (fuel : Nat) (con : Console) (buf : Nat → UInt8) (i : Nat)
    (hquiet : con.coming = []) (hfuel : con.typed.length < fuel) :
    ¬Waits (cookedLoop count fuel con buf i) ↔ LineEnds (count - 1) con.typed (lineOf buf i) := by
  induction fuel generalizing con buf i with
  | zero => exact absurd hfuel (Nat.not_lt_zero _)
  | succ fuel ih =>
      unfold cookedLoop
      by_cases hi : i < count - 1
      · have hroom (b : Nat → UInt8) : (lineOf b i).length < count - 1 := by
          rw [length_lineOf]
          exact hi
        rw [if_pos hi]
        cases htyped : con.typed with
        | nil =>
            have hget : con.getchar = .hang := by simp [Console.getchar, htyped, hquiet]
            rw [hget]
            exact iff_of_false (fun h => h rfl) (lineEnds_nil (hroom buf))
        | cons c rest =>
            have hget : con.getchar = .ret ({ con with typed := rest }, c) := by
              simp [Console.getchar, htyped]
            have hlen : rest.length < fuel := by
              rw [htyped, List.length_cons] at hfuel
              exact Nat.lt_of_succ_lt_succ hfuel
            -- the rest of the line, for a console with the keys that are left
            have hnext {con' : Console} (hkeys : SameKeys { con with typed := rest } con')
                (b : Nat → UInt8) (j : Nat) :
                ¬Waits (cookedLoop count fuel con' b j) ↔ LineEnds (count - 1) rest (lineOf b j) := by
              have h := ih con' b j (hkeys.coming.trans hquiet) (hkeys.typed ▸ hlen)
              rwa [hkeys.typed] at h
            have hstop (hc : endsLine c) : LineEnds (count - 1) (c :: rest) (lineOf buf i) := .stop hc
            have hedit (hends : ¬endsLine c) (hesc : c ≠ 27) :
                LineEnds (count - 1) (c :: rest) (lineOf buf i) ↔
                  LineEnds (count - 1) rest (editLine (lineOf buf i) c) :=
              lineEnds_edit (hroom buf) hends hesc
            rw [hget, Exec.ret_bind]
            dsimp only
            split
            · rename_i hnl
              exact iff_of_true (not_waits_ret _) (hstop (by rcases hnl with rfl | rfl <;> rfl))
            rename_i hnl
            split
            · rename_i heof
              refine iff_of_true ?_ (hstop (by rw [heof]; rfl))
              split <;> exact not_waits_ret _
            rename_i heof
            split
            · rename_i hintr
              exact iff_of_true (not_waits_ret _) (hstop (by rw [hintr]; rfl))
            rename_i hintr
            have hends : ¬endsLine c := by
              simp only [endsLine, decide_eq_true_eq, not_or]
              exact ⟨fun h => hnl (.inl h), fun h => hnl (.inr h), heof, hintr⟩
            split
            · rename_i hback
              rw [hedit hends (by rintro rfl; simp at hback), editLine, if_pos hback, ← lineOf_pred]
              split
              · exact hnext (sameKeys_echoErase _ 1) _ _
              · rename_i hzero
                rw [Nat.eq_zero_of_not_pos hzero]
                exact hnext ⟨rfl, rfl⟩ _ _
            rename_i hback
            split
            · rename_i hkill
              rw [hedit hends (by rintro rfl; simp at hkill), editLine, if_neg hback, if_pos hkill]
              exact hnext (sameKeys_echoErase _ i) buf 0
            rename_i hkill
            split
            · rename_i hword
              rw [hedit hends (by rintro rfl; simp at hword), editLine, if_neg hback, if_neg hkill,
                if_pos hword, ← lineOf_eraseWord]
              exact hnext (sameKeys_echoErase _ _) _ _
            rename_i hword
            split
            · rename_i hclear
              rw [hedit hends (by rintro rfl; simp at hclear), editLine, if_neg hback,
                if_neg hkill, if_neg hword, if_pos hclear]
              have hkeys : SameKeys { con with typed := rest }
                  { con with typed := rest, out := con.out ++ [.clear] } := ⟨rfl, rfl⟩
              exact hnext (hkeys.trans (sameKeys_echoLine _ _ _)) _ _
            rename_i hclear
            split
            · rename_i hesc
              rw [hesc, lineEnds_escape (hroom buf)]
              exact ih _ _ _ hquiet (Nat.lt_of_le_of_lt (length_dropEscape rest) hlen)
            · rename_i hesc
              rw [hedit hends hesc, editLine, if_neg hback, if_neg hkill, if_neg hword,
                if_neg hclear, ← lineOf_update]
              exact hnext (sameKeys_echoChar _ _) _ _
      · rw [if_neg hi]
        refine iff_of_true (not_waits_ret _) (.full ?_)
        rw [length_lineOf]
        exact Nat.le_of_not_lt hi

/-- A read of `count` bytes from the keyboard finds all the keys it wants. -/
def KeysFor (con : Console) (count : Nat) : Prop :=
  if con.canonical then LineEnds (count - 1) con.typed [] else con.vmin = 0 ∨ con.typed ≠ []

theorem waits_bind {α β : Type} {x : Exec α} {f : α → Exec β} (hf : ∀ a, ¬Waits (f a)) :
    Waits (x >>= f) ↔ Waits x := by
  cases x with
  | ret a => exact iff_of_false (hf a) (not_waits_ret a)
  | _ => simp [Waits]

theorem not_waits_bind {α β : Type} {x : Exec α} {f : α → Exec β} (hx : ¬Waits x)
    (hf : ∀ a, ¬Waits (f a)) : ¬Waits (x >>= f) :=
  fun h => hx ((waits_bind hf).mp h)

theorem consoleRead_waits (hquiet : con.coming = []) (buf : Nat → UInt8) (count : Nat) :
    ¬Waits (consoleRead con buf count) ↔ KeysFor con count := by
  unfold consoleRead KeysFor
  split
  · exact cookedLoop_waits _ con buf 0 hquiet (by rw [hquiet]; exact Nat.lt_succ_self _)
  · unfold rawRead
    rw [waits_bind fun _ => not_waits_ret _, rawFirst]
    by_cases hmin : con.vmin > 0
    · rw [if_pos hmin, waits_bind fun _ => not_waits_ret _]
      cases htyped : con.typed with
      | nil =>
          refine iff_of_false (fun h => h ?_) (by simp [Nat.ne_of_gt hmin])
          simp [Waits, Console.getchar, htyped, hquiet]
      | cons c rest =>
          refine iff_of_true (fun h => ?_) (.inr nofun)
          simp [Waits, Console.getchar, htyped] at h
    · rw [if_neg hmin]
      exact iff_of_true (not_waits_ret _) (.inl (Nat.eq_zero_of_not_pos hmin))

end Keys

/-! ## Pipes and nodes -/

/-- A read of `count` bytes finds as many in the pipe, or may end early. -/
def Pipe.Serves (q : Pipe) (count : Nat) : Prop :=
  count ≤ q.ring.count ∨ q.writeRef ≤ 0 ∨ q.nonblocking

theorem pipeRead_waits (q : Pipe) (room : Nat) (bytes : List UInt8) :
    ¬Waits (pipeRead q room bytes) ↔ q.Serves room := by
  induction room generalizing q bytes with
  | zero => exact iff_of_true (not_waits_ret _) (.inl (Nat.zero_le _))
  | succ room ih =>
      unfold pipeRead
      split
      · rename_i hempty
        split
        · rename_i hend
          exact iff_of_true (not_waits_ret _) (.inr hend)
        · rename_i hend
          refine iff_of_false (fun h => h rfl) ?_
          rintro (hroom | hserves)
          · omega
          · exact hend hserves
      · rename_i hempty
        refine (ih _ _).trans (or_congr_left ?_)
        show room ≤ q.ring.count - 1 ↔ room + 1 ≤ q.ring.count
        omega

theorem not_waits_load (v : Vfs) (n : Nat) : ¬Waits (v.load n) := by
  unfold Vfs.load
  split <;> nofun

theorem not_waits_loadBuf (v : Vfs) (b : Nat) : ¬Waits (v.loadBuf b) := by
  unfold Vfs.loadBuf
  split <;> nofun

theorem not_waits_vfsRead (v : Vfs) (n offset count : Nat) : ¬Waits (vfsRead v n offset count) := by
  unfold vfsRead
  refine not_waits_bind (not_waits_load v n) fun m => ?_
  split
  · nofun
  split
  · nofun
  split
  · nofun
  split
  · nofun
  split
  · split
    · nofun
    · split <;> nofun
  split
  · nofun
  dsimp only
  split
  · nofun
  split
  · nofun
  · refine not_waits_bind (not_waits_loadBuf v _) fun b => ?_
    split <;> nofun

/-! ## The two calls -/

section Calls

variable {k : Kernel} {t fd : Nat} (d : Descriptor k t fd)

/-- `sys_poll` with `POLLIN`, once, reports it. -/
def PollsIn (k : Kernel) (t fd : Nat) : Prop :=
  ∃ p r, sysPoll t true [⟨fd, conPollIn, 0⟩] 0 [(k, 0)] = .ret ([p], r) ∧
    p.revents &&& conPollIn ≠ 0

/-- A descriptor of a pipe, of a terminal or of a file: not of a socket. -/
structure NoSocket (d : Descriptor k t fd) : Prop where
  sock : d.file.sock = .null
  pipe : ∀ p, d.file.pipe = some p → k.pipe p ≠ none

/-- What is there agrees with what a read of `count` bytes waits for. -/
def PollMatches (d : Descriptor k t fd) (count : Nat) : Prop :=
  match d.file.pipe.bind k.pipe with
  | some q =>
      if fd = 0 then 0 < q.ring.count ↔ KeysFor k.con count
      else if q.ring.count = 0 then 0 < q.writeRef ∧ !q.nonblocking
      else q.Serves count
  | none =>
      if d.file.node = none then
        if k.con.typed = [] then
          if k.con.canonical then 1 < count else 0 < k.con.vmin
        else KeysFor k.con count
      else if fd = 0 ∨ d.tty then KeysFor k.con count
      else True

/-- What `sys_poll` sees. -/
theorem pollsIn_iff (input : Bool) (h : ∃ output, filePoll k d.file conPollIn =
    .ret (ready conPollIn input output)) : PollsIn k t fd ↔ input := by
  obtain ⟨output, h⟩ := h
  have hfd : pollFd k t ⟨fd, conPollIn, 0⟩ = .ret ⟨fd, conPollIn, ready conPollIn input output⟩ := by
    have hneg : ¬(fd : Int) < 0 := by omega
    unfold pollFd
    simp [hneg, d.installed, load_eq_ret.mpr d.loaded, h]
  have hmap (p p' : PollFd) (hp : pollFd k t p = .ret p') : [p].mapM (pollFd k t) = .ret [p'] := by
    show (pollFd k t p >>= fun p' => Exec.ret [p']) = _
    rw [hp, Exec.ret_bind]
  have hround : ∃ r, sysPoll t true [⟨fd, conPollIn, 0⟩] 0 [(k, 0)] =
      .ret ([⟨fd, conPollIn, ready conPollIn input output⟩], r) := by
    unfold sysPoll pollLoop pollRound
    rw [if_neg (by simp), if_neg (by simp), hmap _ _ hfd]
    simp only [Exec.ret_bind]
    split
    · exact ⟨_, rfl⟩
    · exact ⟨0, rfl⟩
  obtain ⟨r, hr⟩ := hround
  have hbit : ready conPollIn input output &&& conPollIn ≠ 0 ↔ input = true := by
    cases input <;> cases output <;> decide
  rw [← hbit]
  constructor
  · rintro ⟨p, r', hp, hin⟩
    rw [hr] at hp
    cases hp
    exact hin
  · exact fun hin => ⟨_, r, hr, hin⟩

/-- A read that goes to the keyboard. -/
theorem sysRead_keyboard (hkeys : fd = 0 ∨ d.file.pipe = none ∧ (d.file.node = none ∨ d.tty = true))
    (hquiet : k.con.coming = []) {count : Nat} (hcount : 0 < count) (buf : Nat → UInt8) :
    ¬Waits (sysRead k t fd true buf count) ↔ KeysFor k.con count := by
  have hcon : readsConsole k t fd = .ret true := by
    unfold readsConsole
    rcases hkeys with hzero | hcon
    · rw [if_pos hzero]
    · rw [d.isConsoleFd_eq, decide_eq_true hcon, ite_self]
  have hpos : ¬((!true) = true ∨ count = 0) := by simp [Nat.ne_of_gt hcount]
  unfold sysRead
  rw [if_neg hpos, hcon, Exec.ret_bind, if_pos rfl, ← consoleRead_waits hquiet buf count]
  exact not_congr (waits_bind fun _ => not_waits_ret _)

/-- A read that goes to the file. -/
theorem sysRead_file (hzero : fd ≠ 0)
    (hfile : ¬(d.file.pipe = none ∧ (d.file.node = none ∨ d.tty = true))) {count : Nat}
    (hcount : 0 < count) (buf : Nat → UInt8) :
    Waits (sysRead k t fd true buf count) ↔ Waits (fileRead k d.addr d.file count) := by
  have hcon : readsConsole k t fd = .ret false := by
    unfold readsConsole
    rw [if_neg hzero, d.isConsoleFd_eq, decide_eq_false hfile]
  have hpos : ¬((!true) = true ∨ count = 0) := by simp [Nat.ne_of_gt hcount]
  have hload := load_eq_ret.mpr d.loaded
  unfold sysRead
  rw [if_neg hpos, hcon, Exec.ret_bind, if_neg (by decide), d.installed]
  simp only [hload, Exec.ret_bind]
  exact waits_bind fun _ => not_waits_ret _

end Calls

/-- `sys_poll` reports `POLLIN` for a descriptor exactly if a read of `count`
bytes does not wait for ever, under the condition `PollMatches` and no
other. -/
theorem poll_matches_read_iff {k : Kernel} {t fd : Nat} (d : Descriptor k t fd) (h : NoSocket d)
    (hquiet : k.con.coming = []) {count : Nat} (hcount : 0 < count) (buf : Nat → UInt8) :
    (PollsIn k t fd ↔ ¬Waits (sysRead k t fd true buf count)) ↔ PollMatches d count := by
  have hbare : d.file.bare = true ↔ d.file.pipe = none ∧ d.file.node = none := by
    simp [File.bare, h.sock, and_comm]
  unfold PollMatches
  cases hp : d.file.pipe with
  | some p =>
      obtain ⟨q, hq⟩ := Option.ne_none_iff_exists'.mp (h.pipe p hp)
      rw [Option.bind_some, hq]
      have hpoll : PollsIn k t fd ↔ 0 < q.ring.count := by
        rw [pollsIn_iff d (0 < q.ring.count), decide_eq_true_eq]
        refine ⟨q.ring.count < pipeSize, ?_⟩
        rw [filePoll, if_neg (by simp [hbare, hp])]
        simp only [h.sock, hp, hq, gt_iff_lt]
      rw [hpoll]
      dsimp only
      split
      · rename_i hzero
        rw [sysRead_keyboard d (.inl hzero) hquiet hcount]
      · rename_i hzero
        have hread : ¬Waits (sysRead k t fd true buf count) ↔ q.Serves count := by
          rw [sysRead_file d hzero (by simp [hp]) hcount]
          simp only [fileRead, h.sock, hp, hq]
          rw [waits_bind fun _ => not_waits_ret _, pipeRead_waits]
        rw [hread]
        split
        · rename_i hempty
          simp only [hempty, Nat.lt_irrefl, false_iff, Pipe.Serves, Nat.not_le.mpr hcount, false_or,
            not_or, Int.not_le, Bool.not_eq_true, Bool.not_eq_true']
        · rename_i hempty
          exact iff_of_eq (by simp [Nat.pos_of_ne_zero hempty])
  | none =>
      rw [Option.bind_none]
      dsimp only
      split
      · rename_i hnode
        have hpoll : PollsIn k t fd ↔ k.con.typed ≠ [] := by
          rw [pollsIn_iff d (k.con.typed.length > 0), decide_eq_true_eq,
            gt_iff_lt, List.length_pos_iff]
          exact ⟨true, by rw [filePoll, if_pos (hbare.mpr ⟨hp, hnode⟩)]⟩
        rw [hpoll, sysRead_keyboard d (.inr ⟨hp, .inl hnode⟩) hquiet hcount]
        split
        · rename_i hnone
          unfold KeysFor
          rw [hnone]
          split
          · have hline : LineEnds (count - 1) [] [] ↔ count ≤ 1 := by
              constructor
              · rintro (hfull | _)
                exact Nat.sub_eq_zero_iff_le.mp (Nat.le_zero.mp hfull)
              · intro hone
                exact .full (Nat.le_of_eq (Nat.sub_eq_zero_of_le hone))
            rw [hline]
            simp
          · simp [Nat.pos_iff_ne_zero]
        · rename_i hsome
          simp [hsome]
      · rename_i hnode
        have hpoll : PollsIn k t fd := by
          rw [pollsIn_iff d true]
          refine ⟨true, ?_⟩
          rw [filePoll, if_neg (by rw [hbare]; exact fun hb => hnode hb.2)]
          simp only [h.sock, hp]
        rw [iff_true_left hpoll]
        split
        · rename_i hkeys
          have hcon : fd = 0 ∨ d.file.pipe = none ∧ (d.file.node = none ∨ d.tty = true) :=
            hkeys.imp_right fun htty => ⟨hp, .inr htty⟩
          exact sysRead_keyboard d hcon hquiet hcount buf
        · rename_i hkeys
          obtain ⟨hzero, htty⟩ := not_or.mp hkeys
          rw [sysRead_file d hzero (fun hcon => hcon.2.elim hnode htty) hcount, iff_true]
          obtain ⟨n, hn⟩ := Option.ne_none_iff_exists'.mp hnode
          simp only [fileRead, h.sock, hp, hn]
          rw [waits_bind fun _ => not_waits_ret _]
          exact not_waits_vfsRead _ _ _ _

/-- Two bytes are in a pipe, and two are read. -/
theorem poll_matches_two_bytes : ∃ k : Kernel, (k.pipe 5).map (fun q => q.ring.count) = some 2 ∧
    (PollsIn k 1 3 ↔ ¬Waits (sysRead k 1 3 true (fun _ => 0) 2)) := by
  obtain ⟨k, -, hfd, hfile, hcount, hquiet⟩ : ∃ k, runAll quietKernel
      [.spawn fun _ => .null, .pipe 1 .null .null, .write 1 4 (some [10, 20])] = .ret k ∧
      k.fdAt 1 3 = some 7 ∧ k.file 7 = some ⟨none, 0, 0, 1, some 5, 0, .null⟩ ∧
      (k.pipe 5).map (fun q => q.ring.count) = some 2 ∧ k.con.coming = [] :=
    ⟨_, rfl, rfl, rfl, rfl, rfl⟩
  obtain ⟨q, hq, htwo⟩ := Option.map_eq_some_iff.mp hcount
  let d : Descriptor k 1 3 :=
    { addr := 7, file := _, path := none, installed := hfd, loaded := hfile, named := nofun
      unnamed := fun _ => rfl }
  have hsock : NoSocket d := by
    refine ⟨rfl, fun p hp => ?_⟩
    cases hp
    rw [hq]
    nofun
  refine ⟨k, hcount, (poll_matches_read_iff d hsock hquiet (by decide) _).mpr ?_⟩
  have hbind : d.file.pipe.bind k.pipe = some q := hq
  rw [PollMatches, hbind]
  dsimp only
  rw [if_neg (by decide), if_neg (by rw [htwo]; decide)]
  exact .inl (Nat.le_of_eq htwo.symm)

/-- Two bytes are in a pipe that has a writer, and three are to be read:
`sys_poll` reports input, and `sys_read` waits. -/
theorem poll_reports_too_little : ¬∀ (k : Kernel) (t fd : Nat) (d : Descriptor k t fd),
    NoSocket d → k.con.coming = [] → ∀ count, 0 < count → ∀ buf,
      (PollsIn k t fd ↔ ¬Waits (sysRead k t fd true buf count)) := by
  intro hall
  obtain ⟨k, -, hfd, hfile, hpipe, hquiet, hpoll, hread⟩ : ∃ k, runAll quietKernel
      [.spawn fun _ => .null, .pipe 1 .null .null, .write 1 4 (some [10, 20])] = .ret k ∧
      k.fdAt 1 3 = some 7 ∧ k.file 7 = some ⟨none, 0, 0, 1, some 5, 0, .null⟩ ∧
      (k.pipe 5).isSome ∧ k.con.coming = [] ∧ PollsIn k 1 3 ∧
      Waits (sysRead k 1 3 true (fun _ => 0) 3) :=
    ⟨_, rfl, rfl, rfl, rfl, rfl, ⟨_, _, rfl, by decide⟩, rfl⟩
  let d : Descriptor k 1 3 :=
    { addr := 7, file := _, path := none, installed := hfd, loaded := hfile, named := nofun
      unnamed := fun _ => rfl }
  have hsock : NoSocket d := by
    refine ⟨rfl, fun p hp => ?_⟩
    cases hp
    exact Option.isSome_iff_ne_none.mp hpipe
  exact (hall k 1 3 d hsock hquiet 3 (by decide) _).mp hpoll hread

end LiteBSD.Files
