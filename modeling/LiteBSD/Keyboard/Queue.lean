/-
# `LiteBSD.Keyboard.Queue` — the ring between the interrupt and its readers

An interrupt of the keyboard is not interrupted itself; so `queue_char` is one
step.  A call of `getchar`, `keyboard_trygetc`, `keyboard_available` or
`keyboard_flush` is interrupted between any two of its loads and stores, by
the keyboard and, once `getchar` has waited, by the timer, which may go on
with another task, in a call of its own.  So there are any number of tasks
here, each with a place in its call and with what it has loaded (`Call`).

The ring is the queue it is to be, whatever the order of these steps, as long
as one call is under way (`ring_of_one_call`): the interrupt moves the head
and a call the tail, and neither is misled by an old value of the other's
index.  The tasks may take turns, one call behind the other, which is what
happens while one user task is RUNNING (`LiteBSD.Keyboard.Reader`).

Two calls at once would both move the tail, and what one has found out about
it is no longer so when the other has stored.  What is needed is that no call
stores into `buffer_tail` while another has loaded something (`Alone`).

`accepted` are the bytes that went in, `fates` what became of them in turn.
-/
import LiteBSD.Lib.Runs
import LiteBSD.Lib.Journal
import LiteBSD.Keyboard.Model

namespace LiteBSD.Keyboard

open Lib

inductive Routine where
  | getchar
  | trygetc
  | available
  | flush
deriving DecidableEq, Repr

/-- How far a call has come. -/
inductive Call where
  | idle
  /-- about to load `buffer_head` -/
  | entered (f : Routine)
  /-- `buffer_head` is loaded -/
  | head (f : Routine) (h : Nat)
  /-- `buffer_head` and `buffer_tail` were different -/
  | nonempty (f : Routine)
  /-- `buffer_tail` is loaded, to load the byte -/
  | index (f : Routine) (t : Nat)
  /-- the byte is loaded -/
  | byte (f : Routine) (c : UInt8)
  /-- `buffer_tail` is loaded, to store its successor -/
  | store (f : Routine) (c : UInt8) (t : Nat)
deriving DecidableEq, Repr

/-- What becomes of a byte. -/
inductive Fate where
  | returned (c : UInt8)
  | flushed
deriving DecidableEq, Repr

/-- The ring, the tasks, and what has happened. -/
structure Readers where
  ring : KeyRing
  calls : Nat → Call
  accepted : List UInt8
  fates : List Fate
  /-- how many bytes had been accepted when the task loaded `buffer_head` -/
  seen : Nat → Nat

/-- `(head - tail + 256) % 256` -/
def countOf (h t : Nat) : Int := ((h : Int) - t + 256).tmod 256

/-- What `keyboard_available` computes. -/
def keyboardAvailable (r : KeyRing) : Int := countOf r.bufferHead r.bufferTail

/-- The state with a call further on. -/
def Readers.goTo (w : Readers) (task : Nat) (call : Call) : Readers :=
  { w with calls := Function.update w.calls task call }

/-- The state with another tail, and with the fate of the bytes. -/
def Readers.storeTail (w : Readers) (t : Nat) (fates : List Fate) : Readers :=
  { w with ring.bufferTail := t, fates := w.fates ++ fates }

/-- The next load or store of a call, with what is computed up to the one
behind.  A waiting `getchar` begins again. -/
def Readers.advance (w : Readers) (task : Nat) : Readers :=
  match w.calls task with
  | .idle => w
  | .entered f =>
      { w.goTo task (.head f w.ring.bufferHead) with
        seen := Function.update w.seen task w.accepted.length }
  | .head .getchar h =>
      w.goTo task (if h = w.ring.bufferTail then .entered .getchar else .nonempty .getchar)
  | .head .trygetc h => w.goTo task (if h = w.ring.bufferTail then .idle else .nonempty .trygetc)
  | .head .available _ => w.goTo task .idle
  | .head .flush h =>
      (w.storeTail h (List.replicate (countOf h w.ring.bufferTail).toNat .flushed)).goTo task .idle
  | .nonempty f => w.goTo task (.index f w.ring.bufferTail)
  | .index f t => w.goTo task (.byte f (w.ring.keyBuffer t))
  | .byte f c => w.goTo task (.store f c w.ring.bufferTail)
  | .store _ c t => (w.storeTail (nextIndex t) [.returned c]).goTo task .idle

/-- `queue_char` refuses. -/
def KeyRing.refuses (r : KeyRing) : Prop := nextIndex r.bufferHead = r.bufferTail

instance (r : KeyRing) : Decidable r.refuses := inferInstanceAs (Decidable (_ = _))

inductive ReaderEvent where
  /-- `queue_char`, in an interrupt -/
  | queue (c : UInt8)
  /-- a task calls -/
  | call (task : Nat) (f : Routine)
  /-- a call goes on -/
  | advance (task : Nat)
deriving DecidableEq, Repr

def Readers.next (w : Readers) : ReaderEvent → Readers
  | .queue c =>
      { w with
        ring := w.ring.queueChar c
        accepted := if w.ring.refuses then w.accepted else w.accepted ++ [c] }
  | .call task f => if w.calls task = .idle then w.goTo task (.entered f) else w
  | .advance task => w.advance task

/-- `keyboard_init` has run. -/
def started (cells : Nat → UInt8) : Readers where
  ring := ⟨cells, 0, 0⟩
  calls := fun _ => .idle
  accepted := []
  fates := []
  seen := fun _ => 0

def readerSystem : System Readers ReaderEvent where
  init w := ∃ cells, w = started cells
  step w e w' := w' = w.next e

/-- The ring is a queue of the bytes that have been accepted and have no fate
yet. -/
structure IsQueue (w : Readers) : Prop where
  head : w.ring.bufferHead < 256
  tail : w.ring.bufferTail < 256
  fates_le : w.fates.length ≤ w.accepted.length
  count : keyboardAvailable w.ring = (w.accepted.length - w.fates.length : Nat)
  bound : keyboardAvailable w.ring ≤ 255
  /-- the next byte that has a fate is the next that was accepted -/
  fifo : ∀ (i : Nat) (c : UInt8), w.fates[i]? = some (.returned c) → w.accepted[i]? = some c
  refuses : w.ring.refuses ↔ w.accepted.length - w.fates.length = 255
  /-- what a call makes of its two loads was so when it loaded the head -/
  loaded : ∀ task f h, w.calls task = .head f h →
    w.fates.length ≤ w.seen task ∧ w.seen task ≤ w.accepted.length ∧
      countOf h w.ring.bufferTail = (w.seen task - w.fates.length : Nat) ∧
      (h = w.ring.bufferTail ↔ w.seen task = w.fates.length)

/-- The call has loaded something. -/
def Call.underWay : Call → Bool
  | .idle => false
  | .entered _ => false
  | _ => true

/-- The next step is to store into `buffer_tail`. -/
def Call.stores : Call → Bool
  | .head .flush _ => true
  | .store .. => true
  | _ => false

/-- If a call stores into `buffer_tail`, no other is under way. -/
def Alone (w : Readers) (e : ReaderEvent) : Prop :=
  ∀ task, e = .advance task → (w.calls task).stores = true →
    ∀ other, other ≠ task → (w.calls other).underWay = false

/-! ## What a call knows -/

/-- What a call that is under way knows about the bytes. -/
def Call.Knows (accepted : List UInt8) (gone seen : Nat) : Call → Prop
  | .idle => True
  | .entered _ => True
  | .head _ h => h = seen % 256 ∧ gone ≤ seen ∧ seen ≤ accepted.length
  | .nonempty _ => gone < accepted.length
  | .index _ t => t = gone % 256 ∧ gone < accepted.length
  | .byte _ c => accepted[gone]? = some c
  | .store _ c t => accepted[gone]? = some c ∧ t = gone % 256

section Calls

variable {w : Readers} {accepted : List UInt8} {gone gone' seen : Nat} {call : Call}

/-- It goes on knowing this when more bytes come. -/
theorem Call.Knows.append (h : call.Knows accepted gone seen) (c : UInt8) :
    call.Knows (accepted ++ [c]) gone seen := by
  have hlen : accepted.length ≤ (accepted ++ [c]).length := by
    rw [List.length_append]
    exact Nat.le_add_right _ _
  have hget {b : UInt8} (hb : accepted[gone]? = some b) : (accepted ++ [c])[gone]? = some b := by
    obtain ⟨hlt, _⟩ := List.getElem?_eq_some_iff.mp hb
    rwa [List.getElem?_append_left hlt]
  cases call with
  | idle => trivial
  | entered f => trivial
  | head f i => exact ⟨h.1, h.2.1, Nat.le_trans h.2.2 hlen⟩
  | nonempty f => exact Nat.lt_of_lt_of_le h hlen
  | index f t => exact ⟨h.1, Nat.lt_of_lt_of_le h.2 hlen⟩
  | byte f b => exact hget h
  | store f b t => exact ⟨hget h.1, h.2⟩

/-- A call that is not under way knows nothing. -/
theorem Call.knows_of_not_underWay (h : call.underWay = false) : call.Knows accepted gone seen := by
  cases call with
  | idle => trivial
  | entered f => trivial
  | head f i => exact nomatch h
  | nonempty f => exact nomatch h
  | index f t => exact nomatch h
  | byte f b => exact nomatch h
  | store f b t => exact nomatch h

theorem countOf_eq {h t n : Nat} (hh : h = n % 256) (ht : t = gone % 256) (hle : gone ≤ n)
    (hlt : n < gone + 256) : countOf h t = (n - gone : Nat) := by
  have hpos : (0 : Int) ≤ (h : Int) - t + 256 := by omega
  rw [countOf, Int.tmod_eq_emod_of_nonneg hpos]
  omega

/-- A state of a run. -/
structure ReadersInv (w : Readers) : Prop where
  journal : Journal 256 w.ring.keyBuffer w.ring.bufferHead w.ring.bufferTail w.accepted w.fates.length
  fifo : ∀ (i : Nat) (c : UInt8), w.fates[i]? = some (.returned c) → w.accepted[i]? = some c
  knows : ∀ task, (w.calls task).Knows w.accepted w.fates.length (w.seen task)

theorem readersInv_started (cells : Nat → UInt8) : ReadersInv (started cells) where
  journal := .empty (by decide) cells
  fifo := nofun
  knows := fun _ => trivial

theorem ReadersInv.isQueue (h : ReadersInv w) : IsQueue w := by
  have hj := h.journal
  have hgone := hj.gone_le
  have hroom := hj.room
  have hcount : keyboardAvailable w.ring = (w.accepted.length - w.fates.length : Nat) :=
    countOf_eq hj.writes hj.reads hgone hroom
  refine ⟨?_, ?_, hgone, hcount, ?_, h.fifo, ?_, ?_⟩
  · rw [hj.writes]
    exact Nat.mod_lt _ (by decide)
  · rw [hj.reads]
    exact Nat.mod_lt _ (by decide)
  · rw [hcount]
    omega
  · rw [KeyRing.refuses, nextIndex, hj.full_iff]
    omega
  · intro task f i hcall
    have hknows := h.knows task
    rw [hcall] at hknows
    obtain ⟨hi, hle, hseen⟩ := hknows
    refine ⟨hle, hseen, countOf_eq hi hj.reads hle (by omega), ?_⟩
    rw [hi]
    exact hj.eq_iff hle hseen

/-! ## One step -/

/-- A call loads something, and the ring stays as it is. -/
theorem ReadersInv.goTo (h : ReadersInv w) {task : Nat}
    (hknows : call.Knows w.accepted w.fates.length (w.seen task)) : ReadersInv (w.goTo task call) where
  journal := h.journal
  fifo := h.fifo
  knows := by
    intro other
    by_cases ho : other = task
    · subst ho
      simp only [Readers.goTo, Function.update_self]
      exact hknows
    · simp only [Readers.goTo, Function.update_of_ne ho]
      exact h.knows other

/-- A call stores the tail, and no other is under way. -/
theorem ReadersInv.storeTail (h : ReadersInv w) {task n : Nat} {fates : List Fate}
    (halone : ∀ other, other ≠ task → (w.calls other).underWay = false)
    (hn : n ≤ w.accepted.length) (hlen : w.fates.length + fates.length = n)
    (hfifo : ∀ (i : Nat) (c : UInt8), fates[i]? = some (.returned c) → w.accepted[w.fates.length + i]? = some c) :
    ReadersInv ((w.storeTail (n % 256) fates).goTo task .idle) where
  journal := by
    have hlength : (w.fates ++ fates).length = n := by rw [List.length_append, hlen]
    simp only [Readers.goTo, Readers.storeTail, hlength]
    exact h.journal.drop (by omega) hn
  fifo := by
    intro i c hi
    simp only [Readers.goTo, Readers.storeTail] at hi ⊢
    rcases Nat.lt_or_ge i w.fates.length with hold | hnew
    · rw [List.getElem?_append_left hold] at hi
      exact h.fifo i c hi
    · rw [List.getElem?_append_right hnew] at hi
      have hbyte := hfifo _ c hi
      rwa [Nat.add_sub_cancel' hnew] at hbyte
  knows := by
    intro other
    by_cases ho : other = task
    · subst ho
      simp only [Readers.goTo, Function.update_self]
      trivial
    · simp only [Readers.goTo, Readers.storeTail, Function.update_of_ne ho]
      exact Call.knows_of_not_underWay (halone other ho)

theorem queueChar_of_refuses {r : KeyRing} (h : r.refuses) (c : UInt8) : r.queueChar c = r :=
  if_neg (not_not_intro h)

theorem queueChar_of_not_refuses {r : KeyRing} (h : ¬r.refuses) (c : UInt8) : r.queueChar c =
    { r with
      keyBuffer := Function.update r.keyBuffer r.bufferHead c
      bufferHead := nextIndex r.bufferHead } :=
  if_pos h

/-- A call that finds the ring not empty is right. -/
theorem ReadersInv.more (h : ReadersInv w) {f : Routine} {i : Nat}
    (hknows : (Call.head f i).Knows w.accepted w.fates.length seen) (hne : i ≠ w.ring.bufferTail) :
    w.fates.length < w.accepted.length := by
  obtain ⟨hi, hle, hseen⟩ := hknows
  have hmore : seen ≠ w.fates.length := fun he => hne (hi.trans ((h.journal.eq_iff hle hseen).mpr he))
  omega

theorem ReadersInv.queue (h : ReadersInv w) (c : UInt8) : ReadersInv (w.next (.queue c)) := by
  have hj := h.journal
  have hroom := hj.room
  have hfull := hj.full_iff
  unfold Readers.next
  by_cases hrefuses : w.ring.refuses
  · simp only [if_pos hrefuses, queueChar_of_refuses hrefuses]
    exact h
  · have hspace : w.accepted.length + 1 < w.fates.length + 256 := by
      have hne : w.accepted.length + 1 ≠ w.fates.length + 256 := fun he => hrefuses (hfull.mpr he)
      omega
    simp only [if_neg hrefuses, queueChar_of_not_refuses hrefuses]
    refine ⟨hj.push hspace c, fun i b hi => ?_, fun task => (h.knows task).append c⟩
    have hbyte := h.fifo i b hi
    obtain ⟨hlt, _⟩ := List.getElem?_eq_some_iff.mp hbyte
    exact (List.getElem?_append_left hlt).trans hbyte

theorem ReadersInv.advance (h : ReadersInv w) (task : Nat) (halone : Alone w (.advance task)) :
    ReadersInv (w.advance task) := by
  have hj := h.journal
  have hknows := h.knows task
  have hothers := halone task rfl
  unfold Readers.advance
  generalize w.calls task = call at hknows hothers
  match call with
  | .idle => exact h
  | .entered f =>
      refine ⟨hj, h.fifo, fun other => ?_⟩
      by_cases ho : other = task
      · subst ho
        simp only [Readers.goTo, Function.update_self]
        exact ⟨hj.writes, hj.gone_le, Nat.le_refl _⟩
      · simp only [Readers.goTo, Function.update_of_ne ho]
        exact h.knows other
  | .head .getchar i =>
      refine h.goTo ?_
      split
      · trivial
      · rename_i hne
        exact h.more hknows hne
  | .head .trygetc i =>
      refine h.goTo ?_
      split
      · trivial
      · rename_i hne
        exact h.more hknows hne
  | .head .available i => exact h.goTo trivial
  | .head .flush i =>
      obtain ⟨hi, hle, hseen⟩ := hknows
      have hroom := hj.room
      have hcount := countOf_eq hi hj.reads hle (by omega)
      subst hi
      refine h.storeTail (hothers rfl) hseen ?_ fun k c hk => ?_
      · rw [List.length_replicate, hcount]
        omega
      · have hmem := List.mem_of_getElem? hk
        exact absurd (List.eq_of_mem_replicate hmem) nofun
  | .nonempty f => exact h.goTo ⟨hj.reads, hknows⟩
  | .index f t =>
      refine h.goTo ?_
      have hfront := hj.front hknows.2
      rw [hj.reads, ← hknows.1] at hfront
      exact hfront
  | .byte f c => exact h.goTo ⟨hknows, hj.reads⟩
  | .store f c t =>
      obtain ⟨hbyte, ht⟩ := hknows
      obtain ⟨hlt, _⟩ := List.getElem?_eq_some_iff.mp hbyte
      have hnext : nextIndex t = (w.fates.length + 1) % 256 := by rw [ht, nextIndex, Nat.mod_add_mod]
      show ReadersInv ((w.storeTail (nextIndex t) [.returned c]).goTo task .idle)
      rw [hnext]
      refine h.storeTail (hothers rfl) hlt rfl fun k b hk => ?_
      obtain ⟨hk0, hb⟩ := List.getElem?_eq_some_iff.mp hk
      have hzero : k = 0 := Nat.lt_one_iff.mp hk0
      subst hzero
      cases hb
      exact hbyte

end Calls

/-! ## Runs -/

section Runs

variable {w : Readers} {e : ReaderEvent} {task other : Nat}

theorem ReadersInv.next (h : ReadersInv w) (halone : Alone w e) : ReadersInv (w.next e) := by
  cases e with
  | queue c => exact h.queue c
  | call task f =>
      show ReadersInv (if w.calls task = .idle then w.goTo task (.entered f) else w)
      split
      · exact h.goTo trivial
      · exact h
  | advance task => exact h.advance task halone

/-- In every run, of any number of tasks and with interrupts between any two
loads and stores: as long as no call stores into `buffer_tail` while another
is under way, the ring is a queue in every state. -/
theorem ring_of_alone (h : readerSystem.ReachVia Alone w) : IsQueue w := by
  have hinv : ReadersInv w := by
    refine h.invariant ?_ ?_
    · rintro _ ⟨cells, rfl⟩
      exact readersInv_started cells
    · rintro w e _ hinv halone rfl
      exact hinv.next halone
  exact hinv.isQueue

/-- A call begins when no other task is in one. -/
def OneCall (w : Readers) (e : ReaderEvent) : Prop :=
  ∀ task f, e = .call task f → ∀ other, other ≠ task → w.calls other = .idle

/-- A call goes on without touching the others. -/
theorem calls_advance (ho : other ≠ task) : (w.advance task).calls other = w.calls other := by
  unfold Readers.advance
  split
  · rfl
  all_goals exact Function.update_of_ne ho _ _

theorem advance_idle (h : w.calls task = .idle) : w.advance task = w := by
  rw [Readers.advance, h]

theorem alone_of_ne (h : ∀ task, e ≠ .advance task) : Alone w e := fun task he => absurd he (h task)

/-- Calls that come one behind the other are alone: in every state at most
one task is in a call. -/
theorem alone_of_oneCall (h : readerSystem.ReachVia OneCall w) : readerSystem.ReachVia Alone w := by
  suffices hboth : readerSystem.ReachVia Alone w ∧
      ∃ task, ∀ other, other ≠ task → w.calls other = .idle from hboth.1
  induction h with
  | init h =>
      obtain ⟨cells, rfl⟩ := h
      exact ⟨.init ⟨cells, rfl⟩, 0, fun _ _ => rfl⟩
  | @step w _ e _ hg hs ih =>
      obtain ⟨hreach, task, hidle⟩ := ih
      cases hs
      cases e with
      | queue c =>
          exact ⟨.step (e := ReaderEvent.queue c) hreach (alone_of_ne fun _ => nofun) rfl, task, hidle⟩
      | call t f =>
          have hothers := hg t f rfl
          refine ⟨.step (e := ReaderEvent.call t f) hreach (alone_of_ne fun _ => nofun) rfl, t, fun other ho => ?_⟩
          show (if w.calls t = .idle then w.goTo t (.entered f) else w).calls other = .idle
          split
          · exact (Function.update_of_ne ho _ _).trans (hothers other ho)
          · exact hothers other ho
      | advance t =>
          refine ⟨.step hreach ?_ rfl, task, fun other ho => ?_⟩
          · intro t' ht hstores other ho
            cases ht
            -- a task that is about to store is the one that is in a call
            have htask : t = task := by
              by_contra hne
              rw [hidle t hne] at hstores
              exact nomatch hstores
            rw [hidle other (htask ▸ ho)]
            rfl
          · by_cases hot : other = t
            · show (w.advance t).calls other = .idle
              rw [advance_idle (hot ▸ hidle other ho)]
              exact hidle other ho
            · exact (calls_advance hot).trans (hidle other ho)

/-- An interrupt is as many steps as it queues bytes. -/
theorem reach_interrupt (h : readerSystem.ReachVia OneCall w) (kb : Statics) (hring : kb.ring = w.ring)
    (scancode : UInt8) : ∃ accepted, readerSystem.ReachVia OneCall
      { w with ring := (keyboardHandler kb scancode).ring, accepted := accepted } := by
  obtain ⟨s, hs⟩ := ring_keyboardHandler kb scancode
  rw [hs, hring]
  clear hs hring
  induction s generalizing w with
  | nil => exact ⟨w.accepted, h⟩
  | cons c s ih => exact ih (.step (e := ReaderEvent.queue c) h nofun rfl)

/-- The call of a task goes on, or the keyboard interrupts. -/
def ReaderEvent.goesOn (task : Nat) : ReaderEvent → Bool
  | .queue _ => true
  | .call _ _ => false
  | .advance t => t = task

/-- A call, up to where the next one begins. -/
theorem reachVia_run (task : Nat) (h : readerSystem.ReachVia OneCall w) (events : List ReaderEvent)
    (hgo : ∀ e ∈ events, e.goesOn task = true) :
    readerSystem.ReachVia OneCall (events.foldl Readers.next w) ∧
      ∀ other, other ≠ task → (events.foldl Readers.next w).calls other = w.calls other := by
  induction events generalizing w with
  | nil => exact ⟨h, fun _ _ => rfl⟩
  | cons e events ih =>
      obtain ⟨he, hgo⟩ := List.forall_mem_cons.mp hgo
      have hnocall : OneCall w e := by
        rintro t f rfl
        exact nomatch he
      obtain ⟨hreach, hothers⟩ := ih (h.step hnocall rfl) hgo
      refine ⟨hreach, fun other ho => (hothers other ho).trans ?_⟩
      cases e with
      | queue c => rfl
      | call t f => exact nomatch he
      | advance t =>
          obtain rfl : t = task := of_decide_eq_true he
          exact calls_advance ho

end Runs

/-! ## Two tasks, in turn -/

/-- A task waits for a key, the key comes, and the task gets it.  Two more
come behind. -/
def firstCall : List ReaderEvent :=
  [.advance 0, .advance 0, .queue 97] ++ List.replicate 6 (.advance 0) ++ [.queue 98, .queue 99]

/-- Another task flushes, and a key comes after it has loaded the head. -/
def secondCall : List ReaderEvent := [.advance 1, .queue 100, .advance 1]

end LiteBSD.Keyboard
