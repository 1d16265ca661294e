/-
# `LiteBSD.Files.Pipes` — a pipe between any number of readers and writers

`sys_read` and `sys_write` on a pipe move one byte at a time, and between two
bytes another task may run.  Here a call is not one step but as many as its
loop has rounds: a round moves a byte, or finds that the loop is over, or
finds the ring full (or empty) and halts, which changes nothing; and the
result is computed in a step of its own, when the loop is over.

A run is one pipe with the calls on it, in any order.  What other calls do to
a pipe is two events: an end is let go, and the flag of `FIONBIO` is set.  The
bytes carry the number of the call that moved them, so that what one call has
moved can be said.  `run_of_fileWrite` and `run_of_fileRead` connect the
rounds to `sys_write` and `sys_read` as they run undisturbed.

A call looks at the socket of its file first.  The files of a pipe are made
with a socket field that holds what memory held, and when this is not `NULL`
the call never comes to the pipe.
-/
import LiteBSD.Lib.Runs
import LiteBSD.Net.Close
import LiteBSD.Files.Transfer

namespace LiteBSD.Files

open Lib

inductive PipeOp where
  | write (buf : List UInt8)
  | read (count : Nat)

/-- The argument `count`. -/
def PipeOp.count : PipeOp → Nat
  | write buf => buf.length
  | read count => count

inductive Phase where
  | looping
  /-- The loop is over, and the result is still to be computed. -/
  | leaving
  | returned (ret : Int)
deriving DecidableEq

/-- A call with the bytes it has moved. -/
structure PipeCall where
  op : PipeOp
  moved : List UInt8
  phase : Phase

/-- A call that has moved nothing yet. -/
def PipeCall.start (op : PipeOp) : PipeCall := ⟨op, [], .looping⟩

/-- A pipe, the calls on it so far, the bytes that were stored and those that
were taken out, each with the number of its call. -/
structure PipeRun where
  pipe : Pipe
  net : Net
  calls : List PipeCall
  sent : List (Nat × UInt8)
  got : List (Nat × UInt8)

inductive PipeEvent where
  /-- A call through a file whose socket field holds `sock`. -/
  | call (sock : SockPtr) (op : PipeOp)
  /-- The call of this number goes on. -/
  | run (i : Nat)
  | close (pipeEnd : Nat)
  | flag (nonblocking : Bool)

/-- The bytes that carry the number `i`. -/
def own (i : Nat) (l : List (Nat × UInt8)) : List UInt8 :=
  (l.filter fun x => x.1 = i).map Prod.snd

namespace PipeRun

def setCall (s : PipeRun) (i : Nat) (c : PipeCall) : PipeRun :=
  { s with calls := s.calls.set i c }

/-- A round of the loop in `sys_write`. -/
def writeRound (s : PipeRun) (i : Nat) (c : PipeCall) (buf : List UInt8) : PipeRun :=
  match buf[c.moved.length]? with
  | none => s.setCall i { c with phase := .leaving }
  | some b =>
      if s.pipe.ring.count ≥ pipeSize then
        if s.pipe.nonblocking then s.setCall i { c with phase := .leaving } else s
      else
        { s with
          pipe := { s.pipe with ring := s.pipe.ring.store pipeSize b }
          sent := s.sent ++ [(i, b)] }.setCall i { c with moved := c.moved ++ [b] }

/-- A round of the loop in `sys_read`. -/
def readRound (s : PipeRun) (i : Nat) (c : PipeCall) (count : Nat) : PipeRun :=
  if c.moved.length < count then
    if s.pipe.ring.count = 0 then
      if s.pipe.writeRef ≤ 0 ∨ s.pipe.nonblocking then s.setCall i { c with phase := .leaving }
      else s
    else
      let (bytes, ring) := s.pipe.ring.take pipeSize 1
      { s with
        pipe := { s.pipe with ring := ring }
        got := s.got ++ bytes.map (i, ·) }.setCall i { c with moved := c.moved ++ bytes }
  else s.setCall i { c with phase := .leaving }

/-- What is returned for the bytes that were moved. -/
def result (q : Pipe) (c : PipeCall) : Int :=
  match c.op with
  | .write buf => if c.moved = [] ∧ buf.length > 0 then -35 else int32 c.moved.length
  | .read _ => if c.moved = [] ∧ q.writeRef > 0 then -35 else int32 c.moved.length

/-- The call of number `i` goes on. -/
def runCall (s : PipeRun) (i : Nat) : PipeRun :=
  match s.calls[i]? with
  | none => s
  | some c =>
      match c.phase, c.op with
      | .looping, .write buf => s.writeRound i c buf
      | .looping, .read count => s.readRound i c count
      | .leaving, _ => s.setCall i { c with phase := .returned (result s.pipe c) }
      | .returned _, _ => s

/-- A new call; one that finds a socket is done with it at once. -/
def addCall (s : PipeRun) (op : PipeOp) : SockPtr → Option PipeRun
  | .null => some { s with calls := s.calls ++ [.start op] }
  | .wild => none
  | .slot j =>
      match op with
      | .write buf =>
          let (net, r) := sockSendto s.net j buf 0 0
          some { s with net := net, calls := s.calls ++ [⟨op, [], .returned r⟩] }
      | .read count =>
          let (net, _, r) := sockRecvfrom s.net j count
          some { s with net := net, calls := s.calls ++ [⟨op, [], .returned r⟩] }

def step (s : PipeRun) : PipeEvent → Option PipeRun
  | .call sock op => if op.count = 0 then none else s.addCall op sock
  | .run i => some (s.runCall i)
  -- with both ends gone there is no pipe any more
  | .close pipeEnd =>
      let q := s.pipe.dropEnd pipeEnd
      if q.readRef ≤ 0 ∧ q.writeRef ≤ 0 then none else some { s with pipe := q }
  | .flag nonblocking => some { s with pipe := { s.pipe with nonblocking := nonblocking } }

/-- The bytes that the call of number `i` has stored, or taken out. -/
def transferred (s : PipeRun) (i : Nat) (c : PipeCall) : List UInt8 :=
  match c.op with
  | .write _ => own i s.sent
  | .read _ => own i s.got

end PipeRun

/-- The pipe that `sys_pipe` makes, before any call. -/
structure PipeBoot (s : PipeRun) : Prop where
  pipe : ∃ cells, s.pipe = ⟨⟨cells, 0, 0, 0⟩, 1, 1, false⟩
  calls : s.calls = []
  sent : s.sent = []
  got : s.got = []

def pipeSystem : System PipeRun PipeEvent where
  init := PipeBoot
  step := fun s e s' => s.step e = some s'

/-- Nothing is lost, nothing comes twice or out of order, and every call
returns what it moved. -/
structure Lossless (s : PipeRun) : Prop where
  count_le : s.pipe.ring.count ≤ pipeSize
  write_pos : s.pipe.ring.tail = (s.pipe.ring.head + s.pipe.ring.count) % pipeSize
  fifo : s.got.map Prod.snd ++ s.pipe.ring.contents pipeSize = s.sent.map Prod.snd
  returned : ∀ i c (ret : Int), s.calls[i]? = some c → c.phase = .returned ret →
    if s.transferred i c = [] then
      ret = -35 ∨ ret = 0 ∧ s.pipe.writeRef ≤ 0 ∧ ∃ count, c.op = .read count
    else ret = (s.transferred i c).length

/-- The call comes to the pipe, and its count fits an `int`. -/
def ToPipe : PipeEvent → Prop
  | .call sock op => sock = .null ∧ op.count < 2147483648
  | _ => True

/-! ## The bytes of one call -/

section Own

variable {i j : Nat} {l : List (Nat × UInt8)}

theorem own_append (l l' : List (Nat × UInt8)) : own i (l ++ l') = own i l ++ own i l' := by
  simp [own]

theorem own_self (bytes : List UInt8) : own i (bytes.map (i, ·)) = bytes := by
  induction bytes with
  | nil => rfl
  | cons b bytes ih => simpa [own] using ih

theorem own_other (h : j ≠ i) (bytes : List UInt8) : own i (bytes.map (j, ·)) = [] := by
  induction bytes with
  | nil => rfl
  | cons b bytes ih => simp [own, h]

/-- A number that was not given out yet carries nothing. -/
theorem own_fresh {n : Nat} (h : ∀ x ∈ l, x.1 < n) : own n l = [] := by
  simp only [own, List.map_eq_nil_iff, List.filter_eq_nil_iff, decide_eq_true_eq]
  exact fun x hx => Nat.ne_of_lt (h x hx)

end Own

/-! ## The invariant -/

/-- What is known of the call of number `i`. -/
structure CallOk (s : PipeRun) (i : Nat) (c : PipeCall) : Prop where
  moved : s.transferred i c = c.moved
  room : c.moved.length ≤ c.op.count
  pos : 0 < c.op.count
  count : c.op.count < 2147483648
  ret : ∀ ret : Int, c.phase = .returned ret →
    if c.moved = [] then
      ret = -35 ∨ ret = 0 ∧ s.pipe.writeRef ≤ 0 ∧ ∃ count, c.op = .read count
    else ret = c.moved.length

structure PipeInv (s : PipeRun) : Prop where
  ring : s.pipe.ring.Ok pipeSize
  fifo : s.got.map Prod.snd ++ s.pipe.ring.contents pipeSize = s.sent.map Prod.snd
  sent : ∀ x ∈ s.sent, x.1 < s.calls.length
  got : ∀ x ∈ s.got, x.1 < s.calls.length
  call : ∀ i c, s.calls[i]? = some c → CallOk s i c

theorem PipeInv.lossless {s : PipeRun} (h : PipeInv s) : Lossless s := by
  refine ⟨h.ring.count, h.ring.tail, h.fifo, fun i c ret hc hret => ?_⟩
  have hok := h.call i c hc
  rw [hok.moved]
  exact hok.ret ret hret

theorem PipeInv.boot {s : PipeRun} (h : PipeBoot s) : PipeInv s := by
  obtain ⟨cells, hpipe⟩ := h.pipe
  refine ⟨?_, ?_, ?_, ?_, ?_⟩
  · rw [hpipe]
    exact ⟨by decide, Nat.zero_lt_succ _, rfl, Nat.zero_le _⟩
  · rw [hpipe, h.sent, h.got]
    rfl
  · rw [h.sent]
    nofun
  · rw [h.got]
    nofun
  · rw [h.calls]
    nofun

section Steps

variable {s : PipeRun} {i j : Nat} {c : PipeCall}

theorem transferred_write {buf : List UInt8} (h : c.op = .write buf) :
    s.transferred i c = own i s.sent := by
  rw [PipeRun.transferred, h]

theorem transferred_read {count : Nat} (h : c.op = .read count) :
    s.transferred i c = own i s.got := by
  rw [PipeRun.transferred, h]

/-- What is known of a call does not depend on the rest, as long as no writer
comes back. -/
theorem CallOk.congr {s' : PipeRun} (h : CallOk s i c) (hmoved : s'.transferred i c = s.transferred i c)
    (hrefs : s'.pipe.writeRef ≤ s.pipe.writeRef) : CallOk s' i c := by
  refine ⟨hmoved.trans h.moved, h.room, h.pos, h.count, fun ret hret => ?_⟩
  have hr := h.ret ret hret
  split
  · rename_i hnone
    rw [if_pos hnone] at hr
    exact hr.imp_right fun ⟨hz, hw, hc⟩ => ⟨hz, Int.le_trans hrefs hw, hc⟩
  · rename_i hsome
    rwa [if_neg hsome] at hr

/-- One call changes, and no other has moved bytes meanwhile. -/
theorem PipeInv.change (h : PipeInv s) {s' : PipeRun} (hring : s'.pipe.ring.Ok pipeSize)
    (hfifo : s'.got.map Prod.snd ++ s'.pipe.ring.contents pipeSize = s'.sent.map Prod.snd)
    (hsent : ∀ x ∈ s'.sent, x.1 < s.calls.length) (hgot : ∀ x ∈ s'.got, x.1 < s.calls.length)
    (hrefs : s'.pipe.writeRef = s.pipe.writeRef)
    (hother : ∀ j c', j ≠ i → s'.transferred j c' = s.transferred j c')
    (hcalls : s'.calls = s.calls.set i c) (hc : CallOk s' i c) : PipeInv s' := by
  have hlen : s'.calls.length = s.calls.length := by rw [hcalls, List.length_set]
  refine ⟨hring, hfifo, hlen ▸ hsent, hlen ▸ hgot, fun j c' hj => ?_⟩
  rw [hcalls, List.getElem?_set] at hj
  split at hj
  · rename_i hij
    split at hj
    · cases hj
      exact hij ▸ hc
    · cases hj
  · rename_i hij
    exact (h.call j c' hj).congr (hother j c' fun hji => hij hji.symm) (Int.le_of_eq hrefs)

theorem PipeInv.setCall (h : PipeInv s) (hc : CallOk s i c) : PipeInv (s.setCall i c) :=
  h.change h.ring h.fifo h.sent h.got rfl (fun _ _ _ => rfl) rfl (hc.congr rfl (Int.le_refl _))

/-- The loop of a call is over. -/
theorem PipeInv.leave (h : PipeInv s) (hc : CallOk s i c) :
    PipeInv (s.setCall i { c with phase := .leaving }) :=
  h.setCall ⟨hc.moved, hc.room, hc.pos, hc.count, nofun⟩

theorem PipeInv.writeRound (h : PipeInv s) (hi : s.calls[i]? = some c) {buf : List UInt8}
    (hop : c.op = .write buf) (hphase : c.phase = .looping) : PipeInv (s.writeRound i c buf) := by
  have hc := h.call i c hi
  have hlt : i < s.calls.length := (List.getElem?_eq_some_iff.mp hi).1
  unfold PipeRun.writeRound
  split
  · exact h.leave hc
  rename_i b hb
  split
  · split
    · exact h.leave hc
    · exact h
  rename_i hroom
  have hfree : s.pipe.ring.count < pipeSize := Nat.lt_of_not_le hroom
  have hmoved : own i s.sent = c.moved := (transferred_write hop).symm.trans hc.moved
  have hown (j : Nat) : own j (s.sent ++ [(i, b)]) = own j s.sent ++ own j [(i, b)] :=
    own_append _ _
  refine h.change (i := i) (h.ring.store b) ?_ ?_ h.got rfl ?_ rfl ?_
  · show s.got.map Prod.snd ++ (s.pipe.ring.store pipeSize b).contents pipeSize = _
    rw [h.ring.contents_store hfree, ← List.append_assoc, h.fifo]
    simp [PipeRun.setCall]
  · intro x hx
    rcases List.mem_append.mp hx with hx | hx
    · exact h.sent x hx
    · rw [List.mem_singleton.mp hx]
      exact hlt
  · intro j c' hj
    have hsame : own j (s.sent ++ [(i, b)]) = own j s.sent := by
      rw [hown, show own j [(i, b)] = [] from own_other (Ne.symm hj) [b], List.append_nil]
    cases hop' : c'.op with
    | write buf' => rw [transferred_write hop', transferred_write hop', ← hsame]; rfl
    | read count => rw [transferred_read hop', transferred_read hop']; rfl
  · have hlen : c.moved.length < buf.length := (List.getElem?_eq_some_iff.mp hb).1
    refine ⟨?_, ?_, hc.pos, hc.count, fun ret hret => ?_⟩
    · have hnew : own i (s.sent ++ [(i, b)]) = c.moved ++ [b] := by
        rw [hown, hmoved, show own i [(i, b)] = [b] from own_self [b]]
      exact (@transferred_write _ i _ buf hop).trans hnew
    · show (c.moved ++ [b]).length ≤ c.op.count
      rw [hop, List.length_append]
      exact hlen
    · rw [show _ = c.phase from rfl, hphase] at hret
      cases hret

theorem PipeInv.readRound (h : PipeInv s) (hi : s.calls[i]? = some c) {count : Nat}
    (hop : c.op = .read count) (hphase : c.phase = .looping) : PipeInv (s.readRound i c count) := by
  have hc := h.call i c hi
  have hlt : i < s.calls.length := (List.getElem?_eq_some_iff.mp hi).1
  unfold PipeRun.readRound
  split
  swap
  · exact h.leave hc
  rename_i hwanted
  split
  · split
    · exact h.leave hc
    · exact h
  rename_i hsome
  have hone : 1 ≤ s.pipe.ring.count := Nat.one_le_iff_ne_zero.mpr hsome
  have hmoved : own i s.got = c.moved := (transferred_read hop).symm.trans hc.moved
  obtain ⟨b, hb⟩ : ∃ b, (s.pipe.ring.take pipeSize 1).1 = [b] :=
    List.length_eq_one_iff.mp (h.ring.length_take 1)
  have hring := h.ring.take hone
  have hfront := h.ring.take_append hone
  rw [hb] at hfront
  dsimp only
  rw [hb]
  have hown (j : Nat) : own j (s.got ++ [(i, b)]) = own j s.got ++ own j [(i, b)] :=
    own_append _ _
  refine h.change (i := i) hring ?_ h.sent ?_ rfl ?_ rfl ?_
  · show (s.got ++ [(i, b)]).map Prod.snd ++ (s.pipe.ring.take pipeSize 1).2.contents pipeSize = _
    rw [List.map_append, List.append_assoc]
    refine Eq.trans ?_ h.fifo
    rw [← hfront]
    rfl
  · intro x hx
    rcases List.mem_append.mp hx with hx | hx
    · exact h.got x hx
    · rw [List.mem_singleton.mp hx]
      exact hlt
  · intro j c' hj
    have hsame : own j (s.got ++ [(i, b)]) = own j s.got := by
      rw [hown, show own j [(i, b)] = [] from own_other (Ne.symm hj) [b], List.append_nil]
    cases hop' : c'.op with
    | write buf => rw [transferred_write hop', transferred_write hop']; rfl
    | read count' => rw [transferred_read hop', transferred_read hop', ← hsame]; rfl
  · refine ⟨?_, ?_, hc.pos, hc.count, fun ret hret => ?_⟩
    · have hnew : own i (s.got ++ [(i, b)]) = c.moved ++ [b] := by
        rw [hown, hmoved, show own i [(i, b)] = [b] from own_self [b]]
      exact (@transferred_read _ i _ count hop).trans hnew
    · show (c.moved ++ [b]).length ≤ c.op.count
      rw [hop, List.length_append]
      exact hwanted
    · rw [show _ = c.phase from rfl, hphase] at hret
      cases hret

/-- The result of a call that leaves its loop. -/
theorem PipeInv.returned (h : PipeInv s) (hi : s.calls[i]? = some c) :
    PipeInv (s.setCall i { c with phase := .returned (PipeRun.result s.pipe c) }) := by
  have hc := h.call i c hi
  refine h.setCall ⟨hc.moved, hc.room, hc.pos, hc.count, fun ret hret => ?_⟩
  have hsmall : c.moved.length < 2147483648 := Nat.lt_of_le_of_lt hc.room hc.count
  have hint : int32 c.moved.length = c.moved.length := if_pos hsmall
  cases hret
  show if c.moved = [] then _ else _
  unfold PipeRun.result
  split
  · rename_i hnone
    cases hop : c.op with
    | write buf =>
        have hpos := hc.pos
        rw [hop] at hpos
        exact .inl (if_pos ⟨hnone, hpos⟩)
    | read count =>
        dsimp only
        by_cases hwriter : s.pipe.writeRef > 0
        · exact .inl (if_pos ⟨hnone, hwriter⟩)
        · refine .inr ⟨?_, Int.not_lt.mp hwriter, count, rfl⟩
          rw [if_neg fun h => hwriter h.2, hnone]
          rfl
  · rename_i hsome
    cases hop : c.op with
    | write buf => exact (if_neg fun h => hsome h.1).trans hint
    | read count => exact (if_neg fun h => hsome h.1).trans hint

theorem PipeInv.runCall (h : PipeInv s) (i : Nat) : PipeInv (s.runCall i) := by
  unfold PipeRun.runCall
  split
  · exact h
  rename_i c hi
  split
  · rename_i buf hphase hop
    exact h.writeRound hi hop hphase
  · rename_i count hphase hop
    exact h.readRound hi hop hphase
  · exact h.returned hi
  · exact h

/-- A new call has moved nothing. -/
theorem PipeInv.addCall (h : PipeInv s) {op : PipeOp} (hpos : 0 < op.count)
    (hcount : op.count < 2147483648) :
    PipeInv { s with calls := s.calls ++ [.start op] } := by
  have hlen {x : Nat} (hx : x < s.calls.length) : x < (s.calls ++ [PipeCall.start op]).length := by
    rw [List.length_append]
    exact Nat.lt_add_right 1 hx
  refine ⟨h.ring, h.fifo, fun x hx => hlen (h.sent x hx), fun x hx => hlen (h.got x hx), ?_⟩
  intro i c hi
  have hi' : (s.calls ++ [.start op])[i]? = some c := hi
  rw [List.getElem?_append] at hi'
  split at hi'
  · exact (h.call i c hi').congr rfl (Int.le_refl _)
  · rename_i hge
    rw [List.getElem?_singleton] at hi'
    split at hi'
    · rename_i hzero
      cases hi'
      have hii : i = s.calls.length :=
        Nat.le_antisymm (Nat.sub_eq_zero_iff_le.mp hzero) (Nat.le_of_not_lt hge)
      refine ⟨?_, Nat.zero_le _, hpos, hcount, nofun⟩
      subst hii
      cases op with
      | write buf => exact own_fresh h.sent
      | read count => exact own_fresh h.got
    · cases hi'

/-- Changes of the pipe besides its ring, which no writer comes back by. -/
theorem PipeInv.setPipe (h : PipeInv s) {q : Pipe} (hring : q.ring = s.pipe.ring)
    (hrefs : q.writeRef ≤ s.pipe.writeRef) : PipeInv { s with pipe := q } :=
  ⟨hring ▸ h.ring, hring ▸ h.fifo, h.sent, h.got, fun i c hi => (h.call i c hi).congr rfl hrefs⟩

theorem PipeInv.step (h : PipeInv s) {e : PipeEvent} (he : ToPipe e) {s' : PipeRun}
    (hs : s.step e = some s') : PipeInv s' := by
  cases e with
  | call sock op =>
      obtain ⟨rfl, hcount⟩ := he
      rw [PipeRun.step] at hs
      split at hs
      · cases hs
      · rename_i hpos
        cases hs
        exact h.addCall (Nat.pos_of_ne_zero hpos) hcount
  | run i =>
      cases hs
      exact h.runCall i
  | close pipeEnd =>
      rw [PipeRun.step] at hs
      split at hs
      · cases hs
      · cases hs
        unfold Pipe.dropEnd
        split
        · exact h.setPipe rfl (Int.le_refl _)
        · exact h.setPipe rfl (Int.sub_le_self _ (by decide))
  | flag nonblocking =>
      cases hs
      exact h.setPipe rfl (Int.le_refl _)

end Steps

/-! ## A call that is not interrupted -/

/-- The call of number `i` goes on, `m` times. -/
def PipeRun.runTimes (s : PipeRun) (i : Nat) : Nat → PipeRun
  | 0 => s
  | m + 1 => (s.runCall i).runTimes i m

theorem runTimes_add (s : PipeRun) (i m n : Nat) :
    s.runTimes i (m + n) = (s.runTimes i m).runTimes i n := by
  induction m generalizing s with
  | zero => rw [Nat.zero_add]; rfl
  | succ m ih =>
      rw [Nat.add_right_comm]
      exact ih (s.runCall i)

/-- The loop of the call of number `i` ends with the pipe `q`. -/
def Leaves (s : PipeRun) (i : Nat) (op : PipeOp) (q : Pipe) (moved : List UInt8) : Prop :=
  ∃ m, (s.runTimes i m).pipe = q ∧ (s.runTimes i m).calls[i]? = some ⟨op, moved, .leaving⟩

section Alone

variable {s : PipeRun} {i : Nat} {op : PipeOp} {moved : List UInt8} {q : Pipe}

theorem Leaves.of_run (h : Leaves (s.runCall i) i op q moved) : Leaves s i op q moved := by
  obtain ⟨m, hm⟩ := h
  exact ⟨m + 1, hm⟩

theorem Leaves.now {c : PipeCall} (hi : s.calls[i]? = some c)
    (hrun : s.runCall i = s.setCall i ⟨op, moved, .leaving⟩) : Leaves s i op s.pipe moved := by
  have hlt : i < s.calls.length := (List.getElem?_eq_some_iff.mp hi).1
  refine ⟨1, ?_, ?_⟩
  · show (s.runCall i).pipe = s.pipe
    rw [hrun]
    rfl
  · show (s.runCall i).calls[i]? = _
    rw [hrun]
    exact List.getElem?_set_self hlt

/-- Round after round, the loop is that of `sys_write`. -/
theorem leaves_pipeWrite {buf rest : List UInt8} {written : Nat}
    (hi : s.calls[i]? = some ⟨.write buf, moved, .looping⟩) (hrest : buf.drop moved.length = rest)
    (hq : pipeWrite s.pipe rest moved.length = .ret (q, written)) :
    ∃ moved', moved'.length = written ∧ Leaves s i (.write buf) q moved' := by
  induction rest generalizing s moved with
  | nil =>
      cases hq
      refine ⟨moved, rfl, .now hi ?_⟩
      have hover : buf[moved.length]? = none :=
        List.getElem?_eq_none (List.drop_eq_nil_iff.mp hrest)
      simp only [PipeRun.runCall, hi, PipeRun.writeRound, hover]
  | cons b rest ih =>
      have hb : buf[moved.length]? = some b := by
        rw [← List.head?_drop, hrest]
        rfl
      rw [pipeWrite] at hq
      split at hq
      · rename_i hfull
        split at hq
        · rename_i hnonblock
          cases hq
          refine ⟨moved, rfl, .now hi ?_⟩
          simp only [PipeRun.runCall, hi, PipeRun.writeRound, hb, if_pos hfull, if_pos hnonblock]
        · cases hq
      · rename_i hroom
        have hlt : i < s.calls.length := (List.getElem?_eq_some_iff.mp hi).1
        have hrun : s.runCall i = PipeRun.setCall
            { s with
              pipe := { s.pipe with ring := s.pipe.ring.store pipeSize b }
              sent := s.sent ++ [(i, b)] } i ⟨.write buf, moved ++ [b], .looping⟩ := by
          simp only [PipeRun.runCall, hi, PipeRun.writeRound, hb, if_neg hroom]
        have hnext : (s.runCall i).calls[i]? = some ⟨.write buf, moved ++ [b], .looping⟩ := by
          rw [hrun]
          exact List.getElem?_set_self hlt
        have hdrop : buf.drop (moved ++ [b]).length = rest := by
          rw [List.length_append, List.length_singleton, ← List.drop_drop, hrest]
          rfl
        obtain ⟨moved', hlen, hleaves⟩ := ih hnext hdrop (by rw [hrun, List.length_append]; exact hq)
        exact ⟨moved', hlen, hleaves.of_run⟩

/-- Round after round, the loop is that of `sys_read`. -/
theorem leaves_pipeRead {count room : Nat} {bytes : List UInt8} (hok : s.pipe.ring.Ok pipeSize)
    (hi : s.calls[i]? = some ⟨.read count, moved, .looping⟩) (hroom : count - moved.length = room)
    (hq : pipeRead s.pipe room moved = .ret (q, bytes)) : Leaves s i (.read count) q bytes := by
  induction room generalizing s moved with
  | zero =>
      have hover : ¬moved.length < count := Nat.not_lt.mpr (Nat.sub_eq_zero_iff_le.mp hroom)
      cases hq
      refine .now hi ?_
      simp only [PipeRun.runCall, hi, PipeRun.readRound, if_neg hover]
  | succ room ih =>
      have hmore : moved.length < count := by omega
      rw [pipeRead] at hq
      split at hq
      · rename_i hempty
        split at hq
        · rename_i hend
          cases hq
          refine .now hi ?_
          simp only [PipeRun.runCall, hi, PipeRun.readRound, if_pos hmore, if_pos hempty, if_pos hend]
        · cases hq
      · rename_i hsome
        have hlt : i < s.calls.length := (List.getElem?_eq_some_iff.mp hi).1
        have hone : (s.pipe.ring.take pipeSize 1).1.length = 1 := hok.length_take 1
        have hrun : s.runCall i = PipeRun.setCall
            { s with
              pipe := { s.pipe with ring := (s.pipe.ring.take pipeSize 1).2 }
              got := s.got ++ (s.pipe.ring.take pipeSize 1).1.map (i, ·) } i
            ⟨.read count, moved ++ (s.pipe.ring.take pipeSize 1).1, .looping⟩ := by
          simp only [PipeRun.runCall, hi, PipeRun.readRound, if_pos hmore, if_neg hsome]
        have hnext : (s.runCall i).calls[i]? =
            some ⟨.read count, moved ++ (s.pipe.ring.take pipeSize 1).1, .looping⟩ := by
          rw [hrun]
          exact List.getElem?_set_self hlt
        have hleft : count - (moved ++ (s.pipe.ring.take pipeSize 1).1).length = room := by
          rw [List.length_append, hone]
          omega
        refine Leaves.of_run (ih ?_ hnext hleft ?_)
        · rw [hrun]
          exact hok.take (Nat.one_le_iff_ne_zero.mpr hsome)
        · rw [hrun]
          exact hq

/-- A loop that is over, and the result. -/
theorem Leaves.returns (h : Leaves s i op q moved) : ∃ m, (s.runTimes i m).pipe = q ∧
    (s.runTimes i m).calls[i]? =
      some ⟨op, moved, .returned (PipeRun.result q ⟨op, moved, .leaving⟩)⟩ := by
  obtain ⟨m, hpipe, hi⟩ := h
  have hlt := (List.getElem?_eq_some_iff.mp hi).1
  have hrun : (s.runTimes i m).runCall i = (s.runTimes i m).setCall i
      ⟨op, moved, .returned (PipeRun.result q ⟨op, moved, .leaving⟩)⟩ := by
    simp only [PipeRun.runCall, hi, hpipe]
  refine ⟨m + 1, ?_, ?_⟩
  · rw [runTimes_add]
    exact (congrArg PipeRun.pipe hrun).trans hpipe
  · rw [runTimes_add]
    refine (congrArg (fun s : PipeRun => s.calls[i]?) hrun).trans ?_
    exact List.getElem?_set_self hlt

/-- `sys_write` on one end of the pipe is a call that is not interrupted. -/
theorem run_of_fileWrite {k k' : Kernel} {f p pipeEnd : Nat} {buf : List UInt8} {ret : Int}
    (hp : k.pipe p = some s.pipe) (hi : s.calls[i]? = some (.start (.write buf)))
    (h : fileWrite k f (pipeFile p pipeEnd .null) buf = .ret (k', ret)) :
    ∃ m c, k'.pipe p = some (s.runTimes i m).pipe ∧ (s.runTimes i m).calls[i]? = some c ∧
      c.phase = .returned ret := by
  simp only [fileWrite, pipeFile, hp] at h
  obtain ⟨⟨q, written⟩, hq, h⟩ := Exec.bind_eq_ret.mp h
  cases h
  obtain ⟨moved, hlen, hleaves⟩ := leaves_pipeWrite hi rfl hq
  obtain ⟨m, hpipe, hret⟩ := hleaves.returns
  refine ⟨m, _, ?_, hret, ?_⟩
  · show Function.update k.pipe p (some q) p = _
    rw [Function.update_self, hpipe]
  · show Phase.returned (if moved = [] ∧ buf.length > 0 then -35 else int32 moved.length) = _
    simp only [← hlen, List.length_eq_zero_iff]

/-- `sys_read` on one end of the pipe is a call that is not interrupted. -/
theorem run_of_fileRead {k k' : Kernel} {f p pipeEnd count : Nat} {bytes : List UInt8} {ret : Int}
    (hok : s.pipe.ring.Ok pipeSize) (hp : k.pipe p = some s.pipe)
    (hi : s.calls[i]? = some (.start (.read count)))
    (h : fileRead k f (pipeFile p pipeEnd .null) count = .ret (k', bytes, ret)) :
    ∃ m, k'.pipe p = some (s.runTimes i m).pipe ∧
      (s.runTimes i m).calls[i]? = some ⟨.read count, bytes, .returned ret⟩ := by
  simp only [fileRead, pipeFile, hp] at h
  obtain ⟨⟨q, moved⟩, hq, h⟩ := Exec.bind_eq_ret.mp h
  cases h
  obtain ⟨m, hpipe, hret⟩ := (leaves_pipeRead hok hi rfl hq).returns
  refine ⟨m, ?_, hret⟩
  show Function.update k.pipe p (some q) p = _
  rw [Function.update_self, hpipe]

end Alone

/-- In every run in which the calls come to the pipe with a count that fits an
`int`, the pipe is a lossless queue, and every call returns what it moved. -/
theorem pipes_lossless {s : PipeRun} (h : pipeSystem.ReachVia (fun _ => ToPipe) s) :
    Lossless s := by
  refine PipeInv.lossless (System.ReachVia.invariant (I := PipeInv) (fun _ => .boot) ?_ h)
  intro s e s' hi he hs
  exact hi.step he hs

/-- Several events in a row. -/
def PipeRun.steps (s : PipeRun) : List PipeEvent → Option PipeRun
  | [] => some s
  | e :: es => (s.step e).bind fun s => s.steps es

theorem reach_steps {G : PipeRun → PipeEvent → Prop} {s s' : PipeRun} {es : List PipeEvent}
    (h : pipeSystem.ReachVia G s) (hg : ∀ e ∈ es, ∀ s, G s e) (hrun : s.steps es = some s') :
    pipeSystem.ReachVia G s' := by
  induction es generalizing s with
  | nil =>
      cases hrun
      exact h
  | cons e es ih =>
      obtain ⟨s₁, hs₁, hrun⟩ := Option.bind_eq_some_iff.mp hrun
      exact ih (.step h (hg e List.mem_cons_self s) hs₁)
        (fun e' he' => hg e' (List.mem_cons_of_mem e he')) hrun

/-- A pipe as it is made. -/
def newPipe : PipeRun :=
  { pipe := ⟨⟨fun _ => 0, 0, 0, 0⟩, 1, 1, false⟩, net := bootNet, calls := [], sent := [], got := [] }

theorem newPipe_boot : pipeSystem.init newPipe := ⟨⟨_, rfl⟩, rfl, rfl, rfl⟩

/-- Two bytes are written and read, one at a time in turn; the reader asks for
a third, waits, and gets what it has when the last writer closes. -/
theorem pipe_of_two_bytes : ∃ s, pipeSystem.ReachVia (fun _ => ToPipe) s ∧
    s.calls.map PipeCall.phase = [.returned 2, .returned 2] ∧ Lossless s := by
  obtain ⟨s, hrun, hphase⟩ : ∃ s, newPipe.steps [.call .null (.write [10, 20]),
      .call .null (.read 3), .run 0, .run 1, .run 1, .run 0, .run 1, .run 0, .run 0, .run 1,
      .close 1, .run 1, .run 1] = some s ∧
      s.calls.map PipeCall.phase = [.returned 2, .returned 2] := ⟨_, rfl, by decide⟩
  have hreach : pipeSystem.ReachVia (fun _ => ToPipe) s := by
    refine reach_steps (.init newPipe_boot) ?_ hrun
    simp [ToPipe, PipeOp.count]
  exact ⟨s, hreach, hphase, pipes_lossless hreach⟩

/-- The files of a pipe are made in memory that still names a socket: a write
of one byte goes there, and returns `-1`. -/
theorem pipe_misses_write : ¬∀ s, pipeSystem.Reach s → Lossless s := by
  intro hall
  obtain ⟨s, hrun, hsent, c, hcall, hop, hret⟩ : ∃ s,
      newPipe.steps [.call (.slot 0) (.write [10])] = some s ∧ s.sent = [] ∧
      ∃ c, s.calls[0]? = some c ∧ c.op = .write [10] ∧ c.phase = .returned (-1) :=
    ⟨_, rfl, rfl, _, rfl, rfl, rfl⟩
  have hlossless := hall s (reach_steps (.init newPipe_boot) (fun _ _ _ => trivial) hrun)
  have hr := hlossless.returned 0 c (-1) hcall hret
  rw [transferred_write hop, hsent, if_pos (show own 0 [] = [] from rfl)] at hr
  rcases hr with hr | ⟨hr, _⟩ <;> cases hr

end LiteBSD.Files
