/-
# `LiteBSD.Drivers.Wired` — machines on one wire, with their cards

The machines of `LiteBSD.Net.Lan` take frames off the wire as they like.  Here they
have a card each, with the ring of `LiteBSD.Drivers.E1000`, and what they do is what
is on the kernel stack: a poll, or the loop of `arp_resolve`, which polls the card in
each of its rounds.

    [poll]                     the idle loop, `sock_recvfrom`, the interrupt
    [resolve]                  a program sends
    [poll, resolve]            and the loop polls the card
    [resolve, poll, ...]       an echo request is to be answered, or a TCP segment
    [poll, poll, ...]          the interrupt, in the middle of a poll

Every run of these machines is, as far as their caches and sockets and the wire can
tell, a run of `LiteBSD.Net.Lan` (`wired_refines`): what a poll finds in a buffer is a
frame that was sent.  The polls may be nested in any way; what that does to the ring
(`LiteBSD.Drivers.Interrupted`) only changes which frames are found.

A request to be answered is where it can go wrong.  Its descriptor has not been
cleared, so the poll in the loop finds the SAME request, and answers it first.  If
the next hop is in the cache, nothing is noticed.  If not, the stack grows by two
calls for each turn, until it runs out of memory, and whatever comes in meanwhile
stays in the ring (`request_from_nowhere`).  One frame is enough, from a machine
that this one has not heard yet, or has forgotten.
-/
import LiteBSD.Drivers.E1000
import LiteBSD.Net.Lan

namespace LiteBSD.Wired

open Lib Lan E1000

/-! ## One machine -/

/-- A call on the kernel stack. -/
inductive Act where
  | poll (p : Poll)
  /-- in the loop of `arp_resolve`, before or behind the poll of the round -/
  | resolve (polled : Bool)
deriving DecidableEq, Repr

/-- The statics of the stack and of the driver, and the calls under way, the latest
first.  For the record: what the card has stored. -/
structure Node where
  host : Host
  ring : RxRing
  stack : List Act
  stored : List (List UInt8)

namespace Node

/-- The ring, with the poll on top. -/
def rx (s : Node) (p : Poll) : Rx := ⟨s.ring, [p], s.stored, []⟩

/-- `netdev_rx_packet`, up to the loop of `arp_resolve` if there is one. -/
def handOver (s : Node) (cur len : Nat) : Node × List Note :=
  let (host, out) := s.host.ethernetRx (s.ring.buffers cur) len
  ({ s with
      host := host
      stack := if s.host.waits.length < host.waits.length then .resolve false :: s.stack else s.stack }, out)

/-- The call on top goes on. -/
def advance (s : Node) : Node × List Note :=
  match s.stack with
  | [] => (s, [])
  | .poll (.length cur) :: rest =>
      let len := (s.ring.descs cur).length
      if 0 < len then { s with stack := .poll (.hand cur len) :: rest }.handOver cur len
      else ({ s with stack := .poll (.clear cur) :: rest }, [])
  | .poll p :: rest =>
      let w := (s.rx p).advance
      ({ s with ring := w.ring, stack := w.polls.map Act.poll ++ rest }, [])
  | .resolve false :: rest => ({ s with stack := .poll .test :: .resolve true :: rest }, [])
  | .resolve true :: rest =>
      let (host, out) := s.host.lookAgain
      ({ s with
          host := host
          stack := if host.waits.length < s.host.waits.length then rest else .resolve false :: rest }, out)

/-- A call of `ipv4_send`, up to the loop of `arp_resolve` if there is one. -/
def send (s : Node) (c : IpSend) : Node × List Note :=
  let (host, out) := s.host.ipv4Send c []
  ({ s with
      host := host
      stack := if s.host.waits.length < host.waits.length then .resolve false :: s.stack else s.stack },
    .call c false :: out)

end Node

inductive NodeEvent where
  /-- a program sends, or a TCP socket that a segment was handed to -/
  | send (c : IpSend)
  /-- the card is polled, from the kernel or by its interrupt -/
  | poll
  /-- the card stores what it has heard -/
  | store (bytes : List UInt8) (status : UInt8)
  /-- the call on top goes on -/
  | advance
deriving DecidableEq, Repr

def NodeEvent.run (s : Node) : NodeEvent → Node × List Note
  | send c => s.send c
  | poll => ({ s with stack := .poll .test :: s.stack }, [])
  | store bytes status => ({ s with ring := s.ring.store bytes status, stored := s.stored ++ [bytes] }, [])
  | advance => s.advance

/-- A frame that was sent, with anything behind it. -/
def OnWire {ι : Type} (J : List (ι × Note)) (bytes : List UInt8) : Prop :=
  ∃ i frame, (i, Note.frame frame) ∈ J ∧ frame <+: bytes

/-- A send begins when nothing is under way, or inside `netdev_rx_packet`.  The
interrupt may poll at any time.  The card has room, and something to store. -/
def Possible {ι : Type} (J : List (ι × Note)) (s : Node) : NodeEvent → Prop
  | .send _ => s.stack = [] ∨ ∃ cur len rest, s.stack = .poll (.hand cur len) :: rest
  | .poll => True
  | .store bytes status => s.ring.accepts bytes status ∧ OnWire J bytes
  | .advance => True

/-- The machine comes up. -/
structure NodeBoot (dev : NetConfig) (s : Node) : Prop where
  host : Boot dev s.host
  rx : RxBoot ⟨s.ring, [], s.stored, []⟩
  stack : s.stack = []

def wired {ι : Type} (K : Config ι) : Network ι Node NodeEvent Note where
  init i s := NodeBoot (K.dev i) s
  enabled J _ s e := Possible J s e
  step _ s e := e.run s

/-! ## Requests that cannot be answered -/

/-- A function of the receive path that makes every machine send `c`, and does no more. -/
def Calls (f : Host → Host × List Note) (c : IpSend) (inputs : List Input) : Prop :=
  ∀ h, f h = ((h.ipv4Send c inputs).1, .call c true :: (h.ipv4Send c inputs).2)

/-- The frame is an echo request, to be answered with `c`. -/
def EchoRequest (m : Nat → UInt8) (len : Nat) (c : IpSend) (inputs : List Input) : Prop :=
  Calls (fun h => h.ethernetRx m len) c inputs

/-- The frame is an echo request, and the next hop of the answer is not known. -/
def Unanswerable (h : Host) (m : Nat → UInt8) (len : Nat) : Prop :=
  ∃ c inputs, EchoRequest m len c inputs ∧ c.payload.length ≤ 1480 ∧ h.resolved (nextHop h.dev c.dstIp) = none

section Requests

variable {h : Host} {m : Nat → UInt8} {len : Nat}

theorem ipv4Send_waits (h : Host) (c : IpSend) (inputs : List Input) :
    (h.ipv4Send c inputs).1.waits = h.waits ∨
      (c.payload.length ≤ 1480 ∧ h.resolved (nextHop h.dev c.dstIp) = none ∧
        (h.ipv4Send c inputs).1 = { h with waits := ⟨c, 200, inputs⟩ :: h.waits }) := by
  unfold Host.ipv4Send
  split
  · exact .inl rfl
  · rename_i hlen
    split
    · exact .inl rfl
    · rename_i hnone
      exact .inr ⟨Nat.le_of_not_lt hlen, hnone, rfl⟩

/-- The function starts no call that waits, or it is a call. -/
def CallsOrNot (f : Host → Host × List Note) : Prop := (∀ h, (f h).1.waits = h.waits) ∨ ∃ c inputs, Calls f c inputs

theorem messageRx_calls (m : Nat → UInt8) (srcIp proto off len : Nat) :
    CallsOrNot fun h => h.messageRx m srcIp proto off len := by
  by_cases hicmp : proto = ipprotoIcmp ∧ 8 ≤ len ∧ byteAt m off = 8
  · refine .inr ⟨⟨srcIp, ipprotoIcmp, echoReply (slice m off (icmpLen m off len))⟩,
      (transport m srcIp proto off len).toList, fun h => ?_⟩
    dsimp only
    rw [Host.messageRx, if_pos hicmp]
  · refine .inl fun h => ?_
    dsimp only
    rw [Host.messageRx, if_neg hicmp]
    rfl

theorem ipv4Rx_calls (m : Nat → UInt8) (off len : Nat) : CallsOrNot fun h => h.ipv4Rx m off len := by
  by_cases hshort : len < 20
  · refine .inl fun h => ?_
    dsimp only
    rw [Host.ipv4Rx, if_pos hshort]
  by_cases hheader : ipVersion m off ≠ 4 ∨ ipIhl m off < 20 ∨ len < ipIhl m off
  · refine .inl fun h => ?_
    dsimp only
    rw [Host.ipv4Rx, if_neg hshort, if_pos hheader]
  · have hstep (h : Host) : h.ipv4Rx m off len = h.messageRx m (le32 m (off + 12)) (byteAt m (off + 9))
        (off + ipIhl m off) (sub16 (if be16 m (off + 2) > len then len else be16 m (off + 2)) (ipIhl m off)) := by
      rw [Host.ipv4Rx, if_neg hshort]
      dsimp only
      rw [if_neg hheader]
    have hsame : (fun h : Host => h.ipv4Rx m off len) = _ := funext hstep
    rw [hsame]
    exact messageRx_calls m _ _ _ _

theorem ethernetRx_calls (m : Nat → UInt8) (len : Nat) : CallsOrNot fun h => h.ethernetRx m len := by
  by_cases hshort : len < 14
  · refine .inl fun h => ?_
    dsimp only
    rw [Host.ethernetRx, if_pos hshort]
  by_cases harp : be16 m 12 = ethertypeArp
  · refine .inl fun h => ?_
    dsimp only
    rw [Host.ethernetRx, if_neg hshort]
    dsimp only
    rw [if_pos harp, Host.arpRx]
    split
    · rfl
    · dsimp only
      split
      · rfl
      · rfl
  by_cases hip : be16 m 12 = ethertypeIpv4
  · have hstep (h : Host) : h.ethernetRx m len = h.ipv4Rx m 14 (len - 14) := by
      rw [Host.ethernetRx, if_neg hshort]
      dsimp only
      rw [if_neg harp, if_pos hip]
    have hsame : (fun h : Host => h.ethernetRx m len) = _ := funext hstep
    rw [hsame]
    exact ipv4Rx_calls m _ _
  · refine .inl fun h => ?_
    dsimp only
    rw [Host.ethernetRx, if_neg hshort]
    dsimp only
    rw [if_neg harp, if_neg hip]

/-- A frame starts a call that waits exactly if it cannot be answered. -/
theorem waits_iff : h.waits.length < (h.ethernetRx m len).1.waits.length ↔ Unanswerable h m len := by
  constructor
  · intro hlt
    obtain hsame | ⟨c, inputs, hc⟩ := ethernetRx_calls m len
    · have heq : (h.ethernetRx m len).1.waits = h.waits := hsame h
      rw [heq] at hlt
      exact absurd hlt (Nat.lt_irrefl _)
    · have heq : h.ethernetRx m len = _ := hc h
      rw [heq] at hlt
      obtain hsame | ⟨hlen, hnone, -⟩ := ipv4Send_waits h c inputs
      · rw [hsame] at hlt
        exact absurd hlt (Nat.lt_irrefl _)
      · exact ⟨c, inputs, hc, hlen, hnone⟩
  · rintro ⟨c, inputs, hc, hlen, hnone⟩
    have heq : h.ethernetRx m len = _ := hc h
    rw [heq]
    show h.waits.length < (h.ipv4Send c inputs).1.waits.length
    rw [Host.ipv4Send, if_neg (Nat.not_lt.mpr hlen), hnone]
    exact Nat.lt_succ_self _

/-- And it changes nothing else, so that it cannot be answered the next time either. -/
theorem Unanswerable.again (h₁ : Unanswerable h m len) :
    Unanswerable (h.ethernetRx m len).1 m len ∧ (h.ethernetRx m len).1.inputs = h.inputs ∧
      (h.ethernetRx m len).1.arp = h.arp := by
  obtain ⟨c, inputs, hc, hlen, hnone⟩ := h₁
  have hstep : (h.ethernetRx m len).1 = { h with waits := ⟨c, 200, inputs⟩ :: h.waits } := by
    have heq : h.ethernetRx m len = _ := hc h
    rw [heq]
    show (h.ipv4Send c inputs).1 = _
    rw [Host.ipv4Send, if_neg (Nat.not_lt.mpr hlen), hnone]
  rw [hstep]
  exact ⟨⟨c, inputs, hc, hlen, hnone⟩, rfl, rfl⟩

end Requests

/-! ## What is on the stack -/

/-- The three places where a poll and the loop go round.  Nothing below matters. -/
inductive Round (cur : Nat) : List Act → Prop
  | asked (rest : List Act) : Round cur (.resolve false :: rest)
  | test (rest : List Act) : Round cur (.poll .test :: rest)
  | length (rest : List Act) : Round cur (.poll (.length cur) :: rest)

/-- A request that cannot be answered is being answered. -/
def Stuck (s : Node) : Prop :=
  ∃ cur len gone, Round cur s.stack ∧ RingAt s.ring s.stored (.hand cur len) gone ∧
    Unanswerable s.host (s.ring.buffers cur) len

/-- No answer waits, and no poll is inside another. -/
def Free (s : Node) : Prop :=
  ∃ p gone, RingAt s.ring s.stored p gone ∧
    (s.stack = [.poll p] ∨ s.stack = [.poll p, .resolve true] ∨
      p = .test ∧ (s.stack = [] ∨ s.stack = [.resolve false] ∨ s.stack = [.resolve true]))

/-- A call begins when no other is under way. -/
def Quiet (s : Node) (e : NodeEvent) : Prop :=
  ((∃ c, e = .send c) ∨ e = .poll) → s.stack = []

/-- The step does not hand over a request that cannot be answered. -/
def Answerable (s : Node) (e : NodeEvent) : Prop :=
  e = .advance → ∀ cur rest, s.stack = .poll (.length cur) :: rest →
    ¬Unanswerable s.host (s.ring.buffers cur) (s.ring.descs cur).length

section Steps

variable {ι : Type} {J : List (ι × Note)} {s : Node} {e : NodeEvent} {p : Poll} {gone cur len : Nat} {rest : List Act}

theorem hand_of_length {r : RxRing} {stored : List (List UInt8)} (h : RingAt r stored (.length cur) gone) :
    RingAt r stored (.hand cur (r.descs cur).length) gone ∧ 0 < (r.descs cur).length := by
  obtain ⟨rfl, hlt⟩ := h.knows
  have hfront : stored[gone]? = some (r.frame (gone % numRxDesc)) := h.slots.front hlt
  have hpos := h.nonempty _ (List.mem_of_getElem? hfront)
  rw [RxRing.frame, length_slice] at hpos
  exact ⟨⟨h.slots, h.rdh, h.rdt, h.rxCur, h.limit, ⟨rfl, hlt, rfl⟩, h.nonempty⟩, hpos⟩

theorem advance_poll (hp : ∀ cur, p ≠ .length cur) (hs : s.stack = .poll p :: rest) :
    s.advance = ({ s with
      ring := (s.rx p).advance.ring
      stack := (s.rx p).advance.polls.map Act.poll ++ rest }, []) := by
  rw [Node.advance, hs]
  cases p with
  | length cur => exact absurd rfl (hp cur)
  | test => rfl
  | hand cur len => rfl
  | clear cur => rfl
  | next cur => rfl
  | giveBack cur => rfl

theorem advance_length (hs : s.stack = .poll (.length cur) :: rest) (hpos : 0 < (s.ring.descs cur).length) :
    s.advance = { s with stack := .poll (.hand cur (s.ring.descs cur).length) :: rest }.handOver cur
      (s.ring.descs cur).length := by
  rw [Node.advance, hs]
  exact if_pos hpos

theorem advance_resolve (hs : s.stack = .resolve true :: rest) :
    s.advance = ({ s with
      host := s.host.lookAgain.1
      stack := if s.host.lookAgain.1.waits.length < s.host.waits.length then rest else .resolve false :: rest },
      s.host.lookAgain.2) := by
  rw [Node.advance, hs]

/-- A poll with nothing above it goes on, below which there is nothing but a call. -/
theorem Free.advance_poll (h : RingAt s.ring s.stored p gone) (hp : ∀ cur, p ≠ .length cur)
    (hs : s.stack = .poll p :: rest) (hrest : rest = [] ∨ rest = [.resolve true]) : Free s.advance.1 := by
  obtain ⟨p', gone', hadv⟩ := RingAt.advance (w := s.rx p) h rfl
  rw [Wired.advance_poll hp hs]
  refine ⟨p', gone', hadv.ring, ?_⟩
  obtain ⟨hpolls, -⟩ | ⟨-, hp', -, -, hpolls⟩ := hadv.polls
  · dsimp only
    rw [hpolls]
    rcases hrest with rfl | rfl
    · exact .inl rfl
    · exact .inr (.inl rfl)
  · dsimp only
    rw [hpolls]
    rcases hrest with rfl | rfl
    · exact .inr (.inr ⟨hp', .inl rfl⟩)
    · exact .inr (.inr ⟨hp', .inr (.inr rfl)⟩)

/-- A frame is handed over: it is answered at once, or the loop begins. -/
theorem handOver_stack (hpos : 0 < (s.ring.descs cur).length) (hs : s.stack = .poll (.length cur) :: rest) :
    (Unanswerable s.host (s.ring.buffers cur) (s.ring.descs cur).length →
      s.advance.1.stack = .resolve false :: .poll (.hand cur (s.ring.descs cur).length) :: rest) ∧
    (¬Unanswerable s.host (s.ring.buffers cur) (s.ring.descs cur).length →
      s.advance.1.stack = .poll (.hand cur (s.ring.descs cur).length) :: rest) ∧
    s.advance.1.ring = s.ring ∧ s.advance.1.stored = s.stored ∧
    s.advance.1.host = (s.host.ethernetRx (s.ring.buffers cur) (s.ring.descs cur).length).1 ∧
    s.advance.2 = (s.host.ethernetRx (s.ring.buffers cur) (s.ring.descs cur).length).2 := by
  rw [advance_length hs hpos]
  exact ⟨fun hun => if_pos (waits_iff.mpr hun), fun hun => if_neg (mt waits_iff.mp hun), rfl, rfl, rfl, rfl⟩

theorem Free.run (h : Free s) (he : Possible J s e) (hq : Quiet s e) (ha : Answerable s e) : Free (e.run s).1 := by
  obtain ⟨p, gone, hat, hstack⟩ := h
  cases e with
  | send c =>
      have hidle := hq (.inl ⟨c, rfl⟩)
      obtain hs | hs | ⟨rfl, -⟩ := hstack
      · rw [hidle] at hs
        cases hs
      · rw [hidle] at hs
        cases hs
      · refine ⟨.test, gone, hat, .inr (.inr ⟨rfl, ?_⟩)⟩
        obtain hloop | hdone : (s.send c).1.stack = .resolve false :: s.stack ∨ (s.send c).1.stack = s.stack :=
          ite_eq_or_eq _ _ _
        · exact .inr (.inl (hloop.trans (by rw [hidle])))
        · exact .inl (hdone.trans hidle)
  | poll =>
      have hidle := hq (.inr rfl)
      obtain hs | hs | ⟨rfl, -⟩ := hstack
      · rw [hidle] at hs
        cases hs
      · rw [hidle] at hs
        cases hs
      · refine ⟨.test, gone, hat, .inl ?_⟩
        show .poll .test :: s.stack = [.poll .test]
        rw [hidle]
  | store bytes status => exact ⟨p, gone, hat.store he.1, hstack⟩
  | advance =>
      show Free s.advance.1
      have hpoll {rest : List Act} (hs : s.stack = .poll p :: rest) (hrest : rest = [] ∨ rest = [.resolve true]) :
          Free s.advance.1 := by
        by_cases hp : ∃ cur, p = .length cur
        · obtain ⟨cur, rfl⟩ := hp
          obtain ⟨-, hfree, hring, hstored, -⟩ := handOver_stack (hand_of_length hat).2 hs
          have hnext := hfree (ha rfl cur rest hs)
          refine ⟨.hand cur (s.ring.descs cur).length, gone, ?_, ?_⟩
          · rw [hring, hstored]
            exact (hand_of_length hat).1
          · rw [hnext]
            rcases hrest with rfl | rfl
            · exact .inl rfl
            · exact .inr (.inl rfl)
        · exact Free.advance_poll hat (fun cur hcur => hp ⟨cur, hcur⟩) hs hrest
      obtain hs | hs | ⟨rfl, hs | hs | hs⟩ := hstack
      · exact hpoll hs (.inl rfl)
      · exact hpoll hs (.inr rfl)
      · have hsame : s.advance = (s, []) := by rw [Node.advance, hs]
        rw [hsame]
        exact ⟨.test, gone, hat, .inr (.inr ⟨rfl, .inl hs⟩)⟩
      · have hstep : s.advance = ({ s with stack := [.poll .test, .resolve true] }, []) := by rw [Node.advance, hs]
        rw [hstep]
        exact ⟨.test, gone, hat, .inr (.inl rfl)⟩
      · rw [advance_resolve hs]
        refine ⟨.test, gone, hat, .inr (.inr ⟨rfl, ?_⟩)⟩
        dsimp only
        split
        · exact .inl rfl
        · exact .inr (.inl rfl)

/-- How far the calls have gone round: two for each step, as three steps make two calls. -/
def turn : List Act → Nat
  | .poll .test :: rest => 3 * rest.length + 2
  | .poll (.length _) :: rest => 3 * rest.length + 4
  | stack => 3 * stack.length

theorem turn_le (stack : List Act) : turn stack ≤ 3 * stack.length + 1 := by
  unfold turn
  split
  · rw [List.length_cons]
    omega
  · rw [List.length_cons]
    omega
  · exact Nat.le_succ _

theorem Round.turn_pos {stack : List Act} (h : Round cur stack) : 0 < turn stack := by
  cases h with
  | asked rest => exact Nat.mul_pos (by decide) (Nat.succ_pos rest.length)
  | test rest => exact Nat.succ_pos _
  | length rest => exact Nat.succ_pos _

/-- What a step keeps of a machine that is stuck: no call below the top goes on, and
none returns. -/
structure Frozen (s s' : Node) : Prop where
  stuck : Stuck s'
  arp : s'.host.arp = s.host.arp
  inputs : s'.host.inputs = s.host.inputs
  below : s.stack.tail <:+ s'.stack
  deeper : s.stack.length ≤ s'.stack.length

/-- A request that cannot be answered is handed over. -/
theorem frozen_of_length (hat : RingAt s.ring s.stored (.length cur) gone) (hs : s.stack = .poll (.length cur) :: rest)
    (hun : Unanswerable s.host (s.ring.buffers cur) (s.ring.descs cur).length) :
    Frozen s s.advance.1 ∧ turn s.advance.1.stack = turn s.stack + 2 := by
  obtain ⟨hstuck, -, hring, hstored, hhost, -⟩ := handOver_stack (hand_of_length hat).2 hs
  obtain ⟨hagain, hinputs, harp⟩ := hun.again
  rw [← hhost] at hagain hinputs harp
  refine ⟨⟨⟨cur, (s.ring.descs cur).length, gone, ?_, ?_, ?_⟩, harp, hinputs, ?_, ?_⟩, ?_⟩
  · rw [hstuck hun]
    exact .asked _
  · rw [hring, hstored]
    exact (hand_of_length hat).1
  · rw [hring]
    exact hagain
  · rw [hstuck hun, hs]
    exact ⟨[.resolve false, .poll (.hand cur (s.ring.descs cur).length)], rfl⟩
  · rw [hstuck hun, hs]
    exact Nat.le_succ _
  · rw [hstuck hun, hs]
    show 3 * (rest.length + 1 + 1) = 3 * rest.length + 4 + 2
    omega

/-- The poll on top finds the request, again. -/
theorem Stuck.advance (h : Stuck s) : Frozen s s.advance.1 ∧ turn s.advance.1.stack = turn s.stack + 2 := by
  obtain ⟨cur, len, gone, hround, hat, hun⟩ := h
  obtain ⟨hcur, hlt, hlen⟩ := hat.knows
  cases hstack : s.stack with
  | nil => rw [hstack] at hround; cases hround
  | cons top rest =>
      rw [hstack] at hround
      cases hround with
      | asked =>
          have hstep : s.advance = ({ s with stack := .poll .test :: .resolve true :: rest }, []) := by
            rw [Node.advance, hstack]
          rw [hstep]
          refine ⟨⟨⟨cur, len, gone, .test _, hat, hun⟩, rfl, rfl, ?_, ?_⟩, ?_⟩
          · rw [hstack]
            exact ⟨[.poll .test, .resolve true], rfl⟩
          · rw [hstack]
            exact Nat.le_succ _
          · show 3 * (rest.length + 1) + 2 = 3 * (rest.length + 1) + 2
            rfl
      | test =>
          have hrx : s.ring.rxCur = cur := hat.rxCur.trans hcur.symm
          have hfound : (s.ring.descs s.ring.rxCur).done = true := by
            rw [hrx, hcur]
            exact hat.slots.front_iff.mpr hlt
          have hpoll : (s.rx .test).advance = { s.rx .test with polls := [.length s.ring.rxCur] } :=
            congrArg (fun x => { s.rx .test with polls := x }) (if_pos hfound)
          have hstep : s.advance = ({ s with stack := .poll (.length cur) :: rest }, []) := by
            rw [Wired.advance_poll (fun _ hne => by cases hne) hstack, hpoll, hrx]
            rfl
          rw [hstep]
          refine ⟨⟨⟨cur, len, gone, .length _, hat, hun⟩, rfl, rfl, ?_, ?_⟩, rfl⟩
          · rw [hstack]
            exact ⟨[.poll (.length cur)], rfl⟩
          · rw [hstack]
            exact Nat.le_refl _
      | length =>
          have hring : RingAt s.ring s.stored (.length cur) gone :=
            ⟨hat.slots, hat.rdh, hat.rdt, hat.rxCur, hat.limit, ⟨hcur, hlt⟩, hat.nonempty⟩
          rw [hlen] at hun
          rw [← hstack]
          exact frozen_of_length hring hstack hun

/-- Nothing that happens to the machine helps it, and an interrupt only adds a poll. -/
theorem Stuck.run (h : Stuck s) (he : Possible J s e) :
    Frozen s (e.run s).1 ∧ turn s.stack + (if e = .advance then 2 else 0) ≤ turn (e.run s).1.stack := by
  cases e with
  | send c =>
      exfalso
      obtain ⟨cur, len, gone, hround, -⟩ := h
      obtain hidle | ⟨k, n, rest, hhand⟩ := he
      · rw [hidle] at hround
        cases hround
      · rw [hhand] at hround
        cases hround
  | poll =>
      obtain ⟨cur, len, gone, -, hat, hun⟩ := h
      have hle := turn_le s.stack
      refine ⟨⟨⟨cur, len, gone, .test _, hat, hun⟩, rfl, rfl, ?_, Nat.le_succ _⟩, ?_⟩
      · exact (List.tail_suffix _).trans (List.suffix_cons _ _)
      · show turn s.stack + 0 ≤ 3 * s.stack.length + 2
        omega
  | store bytes status =>
      obtain ⟨cur, len, gone, hround, hat, hun⟩ := h
      refine ⟨⟨⟨cur, len, gone, hround, hat.store he.1, ?_⟩, rfl, rfl, List.tail_suffix _, Nat.le_refl _⟩,
        Nat.le_refl _⟩
      -- the card stores elsewhere
      have hother : cur ≠ s.ring.rdh := by
        obtain ⟨hcur, hlt, -⟩ := hat.knows
        have hlimit := hat.limit
        have hfree := mt hat.refuses_iff.mpr he.1.1
        rw [hcur, hat.rdh]
        intro hsame
        have heq := eq_of_mod_eq (Nat.le_of_lt hlt) (by show s.stored.length < gone + 32; omega) hsame.symm
        omega
      show Unanswerable s.host (Function.update s.ring.buffers s.ring.rdh _ cur) len
      rw [Function.update_of_ne hother]
      exact hun
  | advance =>
      obtain ⟨hfrozen, hturn⟩ := h.advance
      exact ⟨hfrozen, Nat.le_of_eq hturn.symm⟩

/-- The poll that hands over the first one. -/
theorem Free.frozen (h : Free s) (hs : s.stack = .poll (.length cur) :: rest)
    (hun : Unanswerable s.host (s.ring.buffers cur) (s.ring.descs cur).length) : Frozen s s.advance.1 := by
  obtain ⟨p, gone, hat, hstack⟩ := h
  have hp : p = .length cur := by
    obtain hs' | hs' | ⟨rfl, hs' | hs' | hs'⟩ := hstack
    · rw [hs] at hs'
      cases hs'
      rfl
    · rw [hs] at hs'
      cases hs'
      rfl
    · rw [hs] at hs'
      cases hs'
    · rw [hs] at hs'
      cases hs'
    · rw [hs] at hs'
      cases hs'
  exact (frozen_of_length (hp ▸ hat) hs hun).1

end Steps

/-! ## The wire -/

section Wire

variable {ι : Type} {J J' : List (ι × Note)} {s : Node} {e : NodeEvent} {bytes : List UInt8}

theorem not_answerable (h : ¬Answerable s e) : e = .advance ∧ ∃ cur rest, s.stack = .poll (.length cur) :: rest ∧
    Unanswerable s.host (s.ring.buffers cur) (s.ring.descs cur).length := by
  rw [Answerable, not_forall] at h
  obtain ⟨rfl, h⟩ := h
  refine ⟨rfl, ?_⟩
  by_contra hnone
  refine h fun cur rest hs hun => hnone ⟨cur, rest, hs, hun⟩

/-- What is known of a machine in every run: a frame that is stored has been sent, and
so has what is in a buffer that a poll may hand over. -/
structure NodeInv (J : List (ι × Note)) (s : Node) : Prop where
  stored : ∀ bytes ∈ s.stored, OnWire J bytes ∧ 0 < bytes.length
  rxCur : s.ring.rxCur < numRxDesc
  buffer : ∀ cur, (cur < numRxDesc ∧ (s.ring.descs cur).done = true) ∨ Act.poll (.length cur) ∈ s.stack →
    s.ring.frame cur ∈ s.stored

theorem OnWire.mono (hJ : J ⊆ J') (h : OnWire J bytes) : OnWire J' bytes := by
  obtain ⟨i, frame, hmem, hpre⟩ := h
  exact ⟨i, frame, hJ hmem, hpre⟩

theorem Free.of_boot {dev : NetConfig} (h : NodeBoot dev s) : Free s := by
  obtain ⟨gone, hat, -⟩ := (RxInv.of_boot h.rx).at_
  exact ⟨.test, gone, hat, .inr (.inr ⟨rfl, .inl h.stack⟩)⟩

theorem NodeInv.of_boot {dev : NetConfig} (h : NodeBoot dev s) : NodeInv J s := by
  refine ⟨fun bytes hb => ?_, ?_, fun cur hcur => ?_⟩
  · rw [show s.stored = [] from h.rx.stored] at hb
    exact absurd hb List.not_mem_nil
  · rw [show s.ring.rxCur = 0 from h.rx.rxCur]
    decide
  · obtain ⟨hlt, hdone⟩ | hmem := hcur
    · have hstatus : (s.ring.descs cur).status = 0 := h.rx.status cur hlt
      rw [RxDesc.done, hstatus] at hdone
      exact absurd hdone (by decide)
    · rw [h.stack] at hmem
      exact absurd hmem List.not_mem_nil

/-- A step that stores nothing: the buffers stay, and a poll looks at a descriptor
that is done. -/
theorem NodeInv.of_ring {s' : Node} (h : NodeInv J s) (hstored : s'.stored = s.stored)
    (hcur : s'.ring.rxCur < numRxDesc) (hframe : s'.ring.frame = s.ring.frame)
    (hdone : ∀ cur, (s'.ring.descs cur).done = true → (s.ring.descs cur).done = true)
    (hstack : ∀ cur, Act.poll (.length cur) ∈ s'.stack → Act.poll (.length cur) ∈ s.stack ∨
      cur < numRxDesc ∧ (s.ring.descs cur).done = true) : NodeInv J s' := by
  refine ⟨fun bytes hb => h.stored bytes (hstored ▸ hb), hcur, fun cur hbusy => ?_⟩
  rw [hframe, hstored]
  refine h.buffer cur ?_
  rcases hbusy with ⟨hlt, hd⟩ | hmem
  · exact .inl ⟨hlt, hdone cur hd⟩
  · exact (hstack cur hmem).symm

/-- A poll goes on that is not about to hand over. -/
theorem NodeInv.poll {rest : List Act} (h : NodeInv J s) {p : Poll} (hp : ∀ cur, p ≠ .length cur)
    (hs : s.stack = .poll p :: rest) : NodeInv J s.advance.1 := by
  have hrest {cur : Nat} (hmem : Act.poll (.length cur) ∈ rest) : Act.poll (.length cur) ∈ s.stack ∨
      cur < numRxDesc ∧ (s.ring.descs cur).done = true := .inl (hs ▸ List.mem_cons_of_mem _ hmem)
  rw [advance_poll hp hs]
  cases p with
  | length cur => exact absurd rfl (hp cur)
  | test =>
      refine h.of_ring rfl h.rxCur rfl (fun _ hd => hd) fun cur hmem => ?_
      by_cases hfound : (s.ring.descs s.ring.rxCur).done = true
      · have hpolls : (s.rx .test).advance.polls = [.length s.ring.rxCur] := if_pos hfound
        rw [hpolls] at hmem
        rcases List.mem_cons.mp hmem with hnew | hmem
        · cases hnew
          exact .inr ⟨h.rxCur, hfound⟩
        · exact hrest hmem
      · have hpolls : (s.rx .test).advance.polls = [] := if_neg hfound
        rw [hpolls] at hmem
        exact hrest hmem
  | hand k len => exact h.of_ring rfl h.rxCur rfl (fun _ hd => hd) fun cur hmem => hrest (by simpa [Node.rx, Rx.advance] using hmem)
  | clear k =>
      refine h.of_ring rfl h.rxCur (frame_clear s.ring k) (fun cur hd => ?_)
        fun cur hmem => hrest (by simpa [Node.rx, Rx.advance] using hmem)
      have hcleared : ((s.rx (.clear k)).advance.ring.descs cur).done =
          Function.update (fun i => (s.ring.descs i).done) k false cur := congrFun (done_clear s.ring k) cur
      have hd' := hcleared.symm.trans hd
      by_cases hk : cur = k
      · rw [hk, Function.update_self] at hd'
        exact absurd hd' Bool.false_ne_true
      · rwa [Function.update_of_ne hk] at hd'
  | next k =>
      refine h.of_ring rfl ?_ rfl (fun _ hd => hd) fun cur hmem => hrest (by simpa [Node.rx, Rx.advance] using hmem)
      exact Nat.mod_lt _ (by decide)
  | giveBack k => exact h.of_ring rfl h.rxCur rfl (fun _ hd => hd) fun cur hmem => hrest (by simpa [Node.rx, Rx.advance] using hmem)

theorem NodeInv.advance (h : NodeInv J s) : NodeInv J s.advance.1 := by
  cases hs : s.stack with
  | nil =>
      have hstep : s.advance = (s, []) := by rw [Node.advance, hs]
      rw [hstep]
      exact h
  | cons top rest =>
      have hrest {cur : Nat} (hmem : Act.poll (.length cur) ∈ rest) : Act.poll (.length cur) ∈ s.stack ∨
          cur < numRxDesc ∧ (s.ring.descs cur).done = true := .inl (hs ▸ List.mem_cons_of_mem _ hmem)
      cases top with
      | resolve polled =>
          cases polled with
          | false =>
              have hstep : s.advance = ({ s with stack := .poll .test :: .resolve true :: rest }, []) := by
                rw [Node.advance, hs]
              rw [hstep]
              exact h.of_ring rfl h.rxCur rfl (fun _ hd => hd) fun cur hmem => hrest (by simpa using hmem)
          | true =>
              rw [advance_resolve hs]
              refine h.of_ring rfl h.rxCur rfl (fun _ hd => hd) fun cur hmem => hrest ?_
              dsimp only at hmem
              split at hmem
              · exact hmem
              · simpa using hmem
      | poll p =>
          by_cases hp : ∃ cur, p = .length cur
          · obtain ⟨k, rfl⟩ := hp
            by_cases hpos : 0 < (s.ring.descs k).length
            · rw [advance_length hs hpos]
              refine h.of_ring rfl h.rxCur rfl (fun _ hd => hd) fun cur hmem => hrest ?_
              dsimp only [Node.handOver] at hmem
              split at hmem
              · simpa using hmem
              · simpa using hmem
            · have hstep : s.advance = ({ s with stack := .poll (.clear k) :: rest }, []) := by
                rw [Node.advance, hs]
                exact if_neg hpos
              rw [hstep]
              exact h.of_ring rfl h.rxCur rfl (fun _ hd => hd) fun cur hmem => hrest (by simpa using hmem)
          · exact h.poll (fun cur hcur => hp ⟨cur, hcur⟩) hs

theorem NodeInv.run (h : NodeInv J s) (he : Possible J s e) : NodeInv J (e.run s).1 := by
  cases e with
  | send c =>
      refine h.of_ring rfl h.rxCur rfl (fun _ hd => hd) fun cur hmem => .inl ?_
      have hor : (s.send c).1.stack = .resolve false :: s.stack ∨ (s.send c).1.stack = s.stack := ite_eq_or_eq _ _ _
      change Act.poll (.length cur) ∈ (s.send c).1.stack at hmem
      rcases hor with hstack | hstack
      · rw [hstack] at hmem
        simpa using hmem
      · rwa [hstack] at hmem
  | poll => exact h.of_ring rfl h.rxCur rfl (fun _ hd => hd) fun cur hmem => .inl (by simpa [NodeEvent.run] using hmem)
  | store new status =>
      refine ⟨fun bytes hb => ?_, h.rxCur, fun cur hbusy => ?_⟩
      · rcases List.mem_append.mp hb with hold | hnew
        · exact h.stored bytes hold
        · obtain rfl := List.mem_singleton.mp hnew
          exact ⟨he.2, he.1.2.1⟩
      · show (s.ring.store new status).frame cur ∈ s.stored ++ [new]
        rw [frame_store]
        by_cases hcur : cur = s.ring.rdh
        · rw [hcur, Function.update_self]
          exact List.mem_append_right _ (List.mem_singleton_self new)
        · rw [Function.update_of_ne hcur]
          refine List.mem_append_left _ (h.buffer cur ?_)
          obtain ⟨hlt, hd⟩ | hmem := hbusy
          · have hstored := congrFun (done_store s.ring new he.1.2.2.2) cur
            rw [Function.update_of_ne hcur] at hstored
            exact .inl ⟨hlt, hstored.symm.trans hd⟩
          · exact .inr hmem
  | advance => exact h.advance

/-- So what is handed over has been sent. -/
theorem NodeInv.arrived (h : NodeInv J s) {cur : Nat} {rest : List Act} (hs : s.stack = .poll (.length cur) :: rest) :
    0 < (s.ring.descs cur).length ∧ Arrived J (.receive (s.ring.buffers cur) (s.ring.descs cur).length) := by
  have hmem : Act.poll (.length cur) ∈ s.stack := hs ▸ List.mem_cons_self
  obtain ⟨⟨i, frame, hsent, hpre⟩, hpos⟩ := h.stored _ (h.buffer cur (.inr hmem))
  rw [RxRing.frame, length_slice] at hpos
  have hlen : frame.length ≤ (s.ring.descs cur).length := by
    have hle := hpre.length_le
    rwa [RxRing.frame, length_slice] at hle
  refine ⟨hpos, i, frame, hsent, fun k hk => ?_, hlen⟩
  obtain ⟨rest, hrest⟩ := hpre
  have hbyte : (frame ++ rest)[k]? = (s.ring.frame cur)[k]? := by rw [hrest]
  rw [List.getElem?_append_left hk] at hbyte
  rw [hbyte, RxRing.frame, slice, List.getElem?_map, List.getElem?_range (Nat.lt_of_lt_of_le hk hlen)]
  rfl

/-- What the step is, as far as the cache and the sockets can tell. -/
def Node.label (s : Node) : NodeEvent → Option LanEvent
  | .send c => some (.send c)
  | .poll => none
  | .store .. => none
  | .advance =>
      match s.stack with
      | .poll (.length cur) :: _ => some (.receive (s.ring.buffers cur) (s.ring.descs cur).length)
      | .resolve true :: _ => some .lookAgain
      | _ => none

theorem shown_advance (h : NodeInv J s) {e' : LanEvent} (hlabel : s.label .advance = some e') :
    Arrived J e' ∧ e'.run s.host = (s.advance.1.host, s.advance.2) := by
  unfold Node.label at hlabel
  dsimp only at hlabel
  split at hlabel
  · rename_i cur rest hs
    cases hlabel
    obtain ⟨hpos, harrived⟩ := h.arrived hs
    obtain ⟨-, -, -, -, hhost, hout⟩ := handOver_stack hpos hs
    refine ⟨harrived, ?_⟩
    rw [hhost, hout]
    rfl
  · rename_i rest hs
    cases hlabel
    refine ⟨trivial, ?_⟩
    rw [advance_resolve hs]
    rfl
  · cases hlabel

theorem hidden_advance (hlabel : s.label .advance = none) : s.advance.1.host = s.host ∧ s.advance.2 = [] := by
  unfold Node.label at hlabel
  unfold Node.advance
  split
  · exact ⟨rfl, rfl⟩
  · rename_i cur rest hs
    rw [hs] at hlabel
    cases hlabel
  · exact ⟨rfl, rfl⟩
  · exact ⟨rfl, rfl⟩
  · rename_i rest hs
    rw [hs] at hlabel
    cases hlabel

variable [DecidableEq ι] {K : Config ι} {W : World ι Node Note} {i : ι}

/-- The machines as `LiteBSD.Net.Lan` sees them. -/
def seen (K : Config ι) : Network.Simulation (wired K) (lan K) where
  party := Node.host
  label := Node.label
  inv J _ s := NodeInv J s
  inv_mono hJ h :=
    ⟨fun bytes hb => ⟨(h.stored bytes hb).1.mono hJ, (h.stored bytes hb).2⟩, h.rxCur, h.buffer⟩
  init h := ⟨h.host, .of_boot h⟩
  keeps h he := h.run he
  shown := by
    intro J i s e e' h he hlabel
    cases e with
    | send c =>
        cases hlabel
        exact ⟨trivial, rfl⟩
    | poll => cases hlabel
    | store bytes status => cases hlabel
    | advance => exact shown_advance h hlabel
  hidden := by
    intro J i s e h he hlabel
    cases e with
    | send c => cases hlabel
    | poll => exact ⟨rfl, rfl⟩
    | store bytes status => exact ⟨rfl, rfl⟩
    | advance => exact hidden_advance hlabel

/-- **Cards on the wire.**  What the machines with their cards do is what the machines
of `LiteBSD.Net.Lan` may do; so whatever holds of these in every run holds here. -/
theorem wired_refines (h : (wired K).system.Reach W) :
    (lan K).system.Reach ⟨fun i => (W.party i).host, W.medium⟩ := ((seen K).reach h).1

/-- A step of another machine leaves this one alone. -/
theorem party_act_ne {j : ι} (hj : i ≠ j) (e : NodeEvent) : ((wired K).act W j e).party i = W.party i :=
  Function.update_of_ne hj ..

theorem party_act_self (e : NodeEvent) : ((wired K).act W i e).party i = (e.run (W.party i)).1 :=
  Function.update_self ..

theorem reach_of_trace {tr : List (World ι Node Note × (ι × NodeEvent) × World ι Node Note)}
    (h : (wired K).system.Trace tr W) : (wired K).system.Reach W := by
  induction h with
  | nil h => exact .init h
  | snoc _ hs ih => exact .step ih trivial hs

theorem Free.depth (h : Free s) : s.stack.length ≤ 2 := by
  obtain ⟨p, gone, -, hs | hs | ⟨-, hs | hs | hs⟩⟩ := h
  all_goals rw [hs]
  · exact Nat.le_succ 1
  · exact Nat.le_refl 2
  · exact Nat.zero_le 2
  · exact Nat.le_succ 1
  · exact Nat.le_succ 1

/-- Up to the first request that cannot be answered. -/
theorem free_of_answerable {tr : List (World ι Node Note × (ι × NodeEvent) × World ι Node Note)}
    (h : (wired K).system.Trace tr W)
    (hall : ∀ x ∈ tr, Quiet (x.1.party x.2.1.1) x.2.1.2 ∧ Answerable (x.1.party x.2.1.1) x.2.1.2) (i : ι) :
    Free (W.party i) := by
  induction h generalizing i with
  | nil h => exact .of_boot (h.1 i)
  | @snoc tr w _ y h hs ih =>
      obtain ⟨j, e⟩ := y
      obtain ⟨he, rfl⟩ := hs
      obtain ⟨⟨hquiet, hlast⟩, hbefore⟩ := List.forall_mem_cons.mp hall
      by_cases hj : i = j
      · subst hj
        rw [party_act_self]
        exact (ih hbefore i).run he hquiet hlast
      · rw [party_act_ne hj]
        exact ih hbefore i

/-- As long as calls begin one at a time, a machine is free or stuck. -/
theorem free_or_stuck {tr : List (World ι Node Note × (ι × NodeEvent) × World ι Node Note)}
    (h : (wired K).system.Trace tr W) (hquiet : ∀ x ∈ tr, Quiet (x.1.party x.2.1.1) x.2.1.2) (i : ι) :
    Free (W.party i) ∨ Stuck (W.party i) := by
  induction h generalizing i with
  | nil h => exact .inl (.of_boot (h.1 i))
  | @snoc tr w _ y h hs ih =>
      obtain ⟨j, e⟩ := y
      obtain ⟨he, rfl⟩ := hs
      obtain ⟨hlast, hbefore⟩ := List.forall_mem_cons.mp hquiet
      by_cases hj : i = j
      · subst hj
        rw [party_act_self]
        rcases ih hbefore i with hfree | hstuck
        · by_cases ha : Answerable (w.party i) e
          · exact .inl (hfree.run he hlast ha)
          · obtain ⟨rfl, cur, rest, hs, hun⟩ := not_answerable ha
            exact .inr (hfree.frozen hs hun).stuck
        · exact .inr (hstuck.run he).1.stuck
      · rw [party_act_ne hj]
        exact ih hbefore i

/-- From the step on in which it got stuck, a machine is frozen, whatever begins on it. -/
theorem frozen_since {late early : List (World ι Node Note × (ι × NodeEvent) × World ι Node Note)}
    {x : World ι Node Note × (ι × NodeEvent) × World ι Node Note}
    (h : (wired K).system.Trace (late ++ x :: early) W) (hstuck : Stuck (x.2.2.party i)) :
    Stuck (W.party i) ∧ (W.party i).host.arp = (x.2.2.party i).host.arp ∧
      (W.party i).host.inputs = (x.2.2.party i).host.inputs ∧
      (∀ y ∈ late, (y.1.party i).stack.tail <:+ (y.2.2.party i).stack ∧
        (y.1.party i).stack.length ≤ (y.2.2.party i).stack.length) ∧
      turn (x.2.2.party i).stack + 2 * (late.countP fun y => y.2.1 = (i, .advance)) ≤ turn (W.party i).stack := by
  induction late generalizing W with
  | nil =>
      cases h with
      | snoc h hs => exact ⟨hstuck, rfl, rfl, nofun, Nat.le_refl _⟩
  | cons y late ih =>
      cases h with
      | @snoc _ w _ y h hs =>
          obtain ⟨j, e⟩ := y
          obtain ⟨he, rfl⟩ := hs
          obtain ⟨hbefore, harp, hinputs, hkept, hturn⟩ := ih h
          rw [List.countP_cons, List.forall_mem_cons]
          by_cases hj : i = j
          · subst hj
            obtain ⟨hnext, hstep⟩ := hbefore.run he
            dsimp only at hstep ⊢
            rw [party_act_self]
            refine ⟨hnext.stuck, hnext.arp.trans harp, hnext.inputs.trans hinputs,
              ⟨⟨hnext.below, hnext.deeper⟩, hkept⟩, ?_⟩
            by_cases hadv : e = .advance
            · rw [if_pos hadv] at hstep
              rw [if_pos (decide_eq_true (by rw [hadv]))]
              omega
            · rw [if_neg hadv] at hstep
              rw [if_neg]
              · omega
              · intro hsame
                exact hadv (congrArg Prod.snd (of_decide_eq_true hsame))
          · have hother : ((wired K).act w j e).party i = w.party i := party_act_ne hj e
            dsimp only
            rw [hother, if_neg]
            · exact ⟨hbefore, harp, hinputs, ⟨⟨List.tail_suffix _, Nat.le_refl _⟩, hkept⟩, hturn⟩
            · intro hsame
              exact hj (congrArg Prod.fst (of_decide_eq_true hsame)).symm

/-- **A request from nowhere.**  As long as calls begin one at a time and every echo
request that is handed over can be answered, there are never more than two calls on a
kernel stack.  From the first one on that cannot, whatever begins then, the sockets
and the cache of the machine stay as they are, no call goes on or returns but the one
on top, which does not return either, and with every three steps there are two more. -/
theorem request_from_nowhere {tr : List (World ι Node Note × (ι × NodeEvent) × World ι Node Note)}
    (h : (wired K).system.Trace tr W) :
    ((∀ x ∈ tr, Quiet (x.1.party x.2.1.1) x.2.1.2 ∧ Answerable (x.1.party x.2.1.1) x.2.1.2) →
      ∀ i, (W.party i).stack.length ≤ 2) ∧
    ∀ late x early i, tr = late ++ x :: early → x.2.1.1 = i →
      (∀ y ∈ early, Quiet (y.1.party y.2.1.1) y.2.1.2) → ¬Answerable (x.1.party i) x.2.1.2 →
      (W.party i).host.inputs = (x.1.party i).host.inputs ∧ (W.party i).host.arp = (x.1.party i).host.arp ∧
      (∀ y ∈ late, (y.1.party i).stack.tail <:+ (y.2.2.party i).stack ∧
        (y.1.party i).stack.length ≤ (y.2.2.party i).stack.length) ∧
      (W.party i).stack ≠ [] ∧
      2 * (late.countP fun y => y.2.1 = (i, .advance)) ≤ 3 * (W.party i).stack.length := by
  refine ⟨fun hall i => (free_of_answerable h hall i).depth, ?_⟩
  rintro late ⟨w, ⟨j, e⟩, w'⟩ early i rfl rfl hquiet hun
  have hupTo := h.upTo
  cases hupTo with
  | snoc hbefore hs =>
      obtain ⟨he, rfl⟩ := hs
      have hfirst : Frozen (w.party j) (((wired K).act w j e).party j) := by
        rw [party_act_self]
        rcases free_or_stuck hbefore hquiet j with hfree | hstuck
        · obtain ⟨rfl, cur, rest, hs, hreq⟩ := not_answerable hun
          exact hfree.frozen hs hreq
        · exact (hstuck.run he).1
      obtain ⟨hstuck, harp, hinputs, hkept, hturn⟩ := frozen_since h hfirst.stuck
      have hle := turn_le (W.party j).stack
      have hpos : 0 < turn (((wired K).act w j e).party j).stack := by
        obtain ⟨cur, len, gone, hround, -⟩ := hfirst.stuck
        exact hround.turn_pos
      refine ⟨hinputs.trans hfirst.inputs, harp.trans hfirst.arp, hkept, fun hidle => ?_, ?_⟩
      · obtain ⟨cur, len, gone, hround, -⟩ := hstuck
        rw [hidle] at hround
        cases hround
      · dsimp only at hturn hpos ⊢
        omega

end Wire

/-! ## A machine that has not been heard -/

def nodesUp : World (Fin 2) Node Note := ⟨fun i => ⟨wireUp.party i, bootRx.ring, [], []⟩, []⟩

/-- The first machine. -/
def here : Fin 2 := ⟨0, Nat.zero_lt_two⟩

/-- The second machine. -/
def there : Fin 2 := ⟨1, Nat.one_lt_two⟩

/-- The machine takes the next steps of the list. -/
def goes (w : World (Fin 2) Node Note) (i : Fin 2) (events : List NodeEvent) : World (Fin 2) Node Note :=
  events.foldl (fun w e => (wired twoMachines).act w i e) w

/-- The frame with this number on the record. -/
def frameOf (w : World (Fin 2) Node Note) (k : Nat) : List UInt8 :=
  match w.medium[k]? with
  | some (_, .frame frame) => frame
  | _ => []

/-- The second machine asks for an address that nobody has. -/
def asks : World (Fin 2) Node Note := goes nodesUp there [.send ⟨0x6302000A, ipprotoUdp, [0, 1, 0, 1, 0, 8, 0, 0]⟩]

/-- The first one hears it, and so knows the second. -/
def hearsAsking : World (Fin 2) Node Note :=
  goes asks here ([.store (frameOf asks 1) 3, .poll] ++ List.replicate 8 .advance)

/-- It sends an echo request. -/
def pings : World (Fin 2) Node Note :=
  goes hearsAsking here [.send ⟨0x1002000A, ipprotoIcmp, [8, 0, 0xEA, 0xD5, 0, 1, 0, 1, 0x61]⟩]

/-- The second machine goes on with its loop, and polls. -/
def pollsAgain : World (Fin 2) Node Note := goes pings there [.advance]

/-- It finds the request. -/
def finds : World (Fin 2) Node Note :=
  goes (goes pollsAgain there [.store (frameOf pollsAgain 3) 3]) there [.advance]

/-- A run in which calls begin one at a time. -/
def QuietRun (tr : List (World (Fin 2) Node Note × (Fin 2 × NodeEvent) × World (Fin 2) Node Note))
    (w : World (Fin 2) Node Note) : Prop :=
  (wired twoMachines).system.Trace tr w ∧ ∀ x ∈ tr, Quiet (x.1.party x.2.1.1) x.2.1.2

section Traces

variable {w : World (Fin 2) Node Note} {i : Fin 2} {e : NodeEvent}
  {tr : List (World (Fin 2) Node Note × (Fin 2 × NodeEvent) × World (Fin 2) Node Note)}

theorem QuietRun.snoc (h : QuietRun tr w) (he : Possible w.medium (w.party i) e) (hq : Quiet (w.party i) e) :
    QuietRun ((w, (i, e), (wired twoMachines).act w i e) :: tr) ((wired twoMachines).act w i e) :=
  ⟨h.1.snoc (Network.step_act he), List.forall_mem_cons.mpr ⟨hq, h.2⟩⟩

theorem quiet_advance {s : Node} : Quiet s .advance := by
  rintro (⟨c, hc⟩ | hc)
  · exact nomatch hc
  · exact nomatch hc

theorem quietRun_advances (h : QuietRun tr w) (i : Fin 2) (n : Nat) :
    ∃ late, QuietRun (late ++ tr) (goes w i (List.replicate n .advance)) ∧
      late.countP (fun y => y.2.1 = (i, .advance)) = n := by
  induction n generalizing w tr with
  | zero => exact ⟨[], h, rfl⟩
  | succ n ih =>
      obtain ⟨late, hlate, hcount⟩ := ih (h.snoc (i := i) (e := .advance) trivial quiet_advance)
      refine ⟨late ++ [(w, (i, .advance), (wired twoMachines).act w i .advance)], ?_, ?_⟩
      · rw [List.append_assoc]
        exact hlate
      · rw [List.countP_append, hcount, List.countP_singleton, if_pos (decide_eq_true rfl)]

theorem quietRun_store (h : QuietRun tr w) (i : Fin 2) (k : Nat) {j : Fin 2}
    (hk : w.medium[k]? = some (j, Note.frame (frameOf w k))) (ha : (w.party i).ring.accepts (frameOf w k) 3) :
    ∃ tr', QuietRun tr' (goes w i [.store (frameOf w k) 3]) := by
  refine ⟨_, h.snoc (e := .store _ _) ⟨ha, j, _, List.mem_of_getElem? hk, List.prefix_refl _⟩ ?_⟩
  rintro (⟨c, hc⟩ | hc)
  · exact nomatch hc
  · exact nomatch hc

end Traces

theorem hearsAsking_run : ∃ tr, QuietRun tr hearsAsking := by
  have hup : QuietRun [] nodesUp := ⟨.nil ⟨fun _ => ⟨⟨rfl, fun _ => rfl, rfl, rfl⟩, bootRx_boot, rfl⟩, rfl⟩, nofun⟩
  have hasks : QuietRun _ asks := hup.snoc (.inl rfl) fun _ => rfl
  obtain ⟨tr, hstored⟩ := quietRun_store hasks here 1 (j := there) (by decide +kernel) (by decide +kernel)
  have hpoll := hstored.snoc (i := here) (e := .poll) trivial fun _ => rfl
  obtain ⟨late, hlate, -⟩ := quietRun_advances hpoll here 8
  rw [hearsAsking, goes, List.foldl_append]
  exact ⟨_, hlate⟩

theorem finds_run : ∃ tr, QuietRun tr finds := by
  obtain ⟨tr, htaken⟩ := hearsAsking_run
  have hidle : (hearsAsking.party here).stack = [] := by decide +kernel
  have hpings : QuietRun _ pings := htaken.snoc (.inl hidle) fun _ => hidle
  have hround : QuietRun _ pollsAgain := hpings.snoc (i := there) (e := .advance) trivial quiet_advance
  obtain ⟨tr', hrequest⟩ := quietRun_store hround there 3 (j := here) (by decide +kernel) (by decide +kernel)
  exact ⟨_, hrequest.snoc (i := there) (e := .advance) trivial quiet_advance⟩

/-- The interrupt of the second machine polls inside the poll that has found the
request, while a call of that machine waits for an answer of its own.  On the wire of
`LiteBSD.Net.Lan`, too, the machines may come to this. -/
theorem finds_on_lan : ∃ W : World (Fin 2) Node Note, (W.party there).stack.length = 3 ∧
    (W.party there).host.waits.length = 1 ∧ W.medium.length = 4 ∧
    (lan twoMachines).system.Reach ⟨fun i => (W.party i).host, W.medium⟩ := by
  obtain ⟨tr, htr⟩ := finds_run
  have hinterrupt := htr.1.snoc (Network.step_act (N := wired twoMachines) (i := there) (e := .poll) trivial)
  exact ⟨_, by decide +kernel, by decide +kernel, by decide +kernel, wired_refines (reach_of_trace hinterrupt)⟩

/-- The request of the first machine is handed over on the second, which has not heard
the first one yet.  Thirty steps later there are 23 calls on its stack. -/
theorem unheard_machine_asks : ∃ W : World (Fin 2) Node Note, (wired twoMachines).system.Reach W ∧
    (W.party there).host.inputs = [] ∧ (W.party there).stack.length = 23 ∧ 2 * 30 ≤ 3 * (W.party there).stack.length := by
  obtain ⟨tr, htr⟩ := finds_run
  have hx := htr.snoc (i := there) (e := .advance) trivial quiet_advance
  obtain ⟨late, hlate, hcount⟩ := quietRun_advances hx there 30
  have hun : ¬Answerable (finds.party there) .advance := by
    intro ha
    have hgrows : (finds.party there).host.waits.length < ((finds.party there).host.ethernetRx
        ((finds.party there).ring.buffers 0) ((finds.party there).ring.descs 0).length).1.waits.length := by decide +kernel
    have hstack : (finds.party there).stack = [.poll (.length 0), .resolve true] := by decide +kernel
    exact ha rfl 0 _ hstack (waits_iff.mp hgrows)
  obtain ⟨hinputs, -, -, -, hdepth⟩ := (request_from_nowhere hlate.1).2 late _ tr there rfl rfl htr.2 hun
  rw [hcount] at hdepth
  have hnone : (finds.party there).host.inputs = [] := by decide +kernel
  exact ⟨_, reach_of_trace hlate.1, hinputs.trans hnone, by decide +kernel, hdepth⟩

end LiteBSD.Wired
