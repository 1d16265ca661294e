/-
# `LiteBSD.Net.Queues` — the two receive queues of a socket

A socket has a ring of 65536 bytes, which `socket_tcp_input` fills, and a ring
of 16 datagrams, which `socket_udp_input` and `socket_icmp_input` fill.
`sock_recvfrom` empties the one or the other, by the type of the socket.

A run starts with the `sock_create` that hands the slot out and goes on until
it is given back; in between anything may happen to the table, in any order.
Beside the network a state records what went in and what came out, and the
theorem `receive_queues_fifo` compares the two: what came out, followed by
what is still queued, is what went in.  What goes in is told without the
rings (`TableEvent.bytes`, `TableEvent.datagrams`): the payload as far as
there is room for it.
-/
import LiteBSD.Net.Stream
import LiteBSD.Net.Uplink

namespace LiteBSD

open Lib

/-- The datagrams in the queue of a socket, oldest first. -/
def Socket.queued (s : Socket) : List Dgram := s.dgram.contents maxDgramQueue

/-- The address and the port `sock_recvfrom` reports, if it reports any. -/
def recvSource (n : Net) (i : Fin maxSockets) (len : Nat) : Option (Nat × Nat) :=
  let s := n.slot i
  if len = 0 ∨ s.type = sockStream ∨ s.dgram.count = 0 then none
  else
    let pkt := s.dgram.cells s.dgram.head
    some (pkt.srcIp, pkt.srcPort)

/-- The header `socket_icmp_input` puts in front of the payload. -/
def icmpHeader (type code id seq : Nat) : List UInt8 :=
  [UInt8.ofNat type, UInt8.ofNat code, 0, 0] ++ putBe16 id ++ putBe16 seq

/-- The slot `socket_udp_input` puts the datagram into. -/
def udpSlot (n : Net) (dstPort : Nat) : Option (Fin maxSockets) :=
  (List.finRange maxSockets).find? fun i => udpMatch (n.slot i) dstPort

/-! ## What can happen to the table -/

/-- A packet that comes in, or a call on one of the sockets. -/
inductive TableEvent where
  | tcp (seg : Segment)
  | udp (srcIp srcPort dstPort : Nat) (payload : List UInt8)
  | icmp (srcIp type code id seq : Nat) (payload : List UInt8)
  | recv (j : Fin maxSockets) (len : Nat)
  | send (j : Fin maxSockets) (buf : List UInt8) (ip port : Nat)
  | bind (j : Fin maxSockets) (ip port : Nat)
  | listen (j : Fin maxSockets)
  | connect (j : Fin maxSockets) (ip port : Nat)
  | connectAgain (j : Fin maxSockets)
  | connectDone (j : Fin maxSockets)
  | create (domain type protocol : Nat)
  | close (j : Fin maxSockets)
  | destroy (j : Fin maxSockets)

namespace TableEvent

def run (n : Net) : TableEvent → Net
  | .tcp seg => socketTcpInput n seg
  | .udp srcIp srcPort dstPort payload => socketUdpInput n srcIp srcPort dstPort payload
  | .icmp srcIp type code id seq payload =>
      socketIcmpInput n srcIp (icmpHeader type code id seq) payload
  | .recv j len => (sockRecvfrom n j len).1
  | .send j buf ip port => (sockSendto n j buf ip port).1
  | .bind j ip port => (sockBind n j ip port).1
  | .listen j => (sockListen n j).1
  | .connect j ip port => (sockConnect n j ip port).1
  | .connectAgain j => LiteBSD.connectAgain n j
  | .connectDone j => (LiteBSD.connectDone n j).1
  | .create domain type protocol => (sockCreate n domain type protocol).1
  | .close j => (sockClose n j).1
  | .destroy j => sockDestroy n j

/-- The socket in slot `i` stays open, and the length of an ICMP payload is
that of a 16-bit packet less its header. -/
def Allowed (i : Fin maxSockets) : TableEvent → Prop
  | .icmp _ _ _ _ _ payload => payload.length ≤ 65527
  | .close j | .destroy j => j ≠ i
  | _ => True

variable (i : Fin maxSockets) (n : Net)

/-- The bytes that come in for the ring of slot `i`, as far as there is room. -/
def bytes : TableEvent → List UInt8
  | .tcp seg => if tcpSlot n seg = some i then storedOf (n.slot i) seg else []
  | _ => []

/-- The datagrams that come in for slot `i`, cut to the size of a packet. -/
def datagrams : TableEvent → List Dgram
  | .udp srcIp srcPort dstPort payload =>
      if udpSlot n dstPort = some i then [⟨srcIp, srcPort, payload.take 1500⟩] else []
  | .icmp srcIp type code id seq payload =>
      if icmpMatch (n.slot i) then
        [⟨srcIp, 0, (icmpHeader type code id seq ++ payload).take 1500⟩]
      else []
  | _ => []

/-- Those of them there is room for. -/
def accepts (e : TableEvent) : List Dgram :=
  (e.datagrams i n).take (maxDgramQueue - (n.slot i).dgram.count)

/-- The bytes a `sock_recvfrom` on slot `i` returns from its ring. -/
def gives : TableEvent → List UInt8
  | .recv j len =>
      if j = i ∧ (n.slot i).type = sockStream then (sockRecvfrom n i len).2.1 else []
  | _ => []

end TableEvent

/-- A datagram as `sock_recvfrom` returns it: how much was asked for, where
it says the datagram is from, and the bytes it stores. -/
structure DgramRead where
  len : Nat
  source : Nat × Nat
  bytes : List UInt8
deriving DecidableEq, Repr

/-- It is a read of this datagram. -/
def DgramRead.Reads (o : DgramRead) (d : Dgram) : Prop :=
  o.source = (d.srcIp, d.srcPort) ∧ o.bytes = d.data.take (min o.len d.data.length)

/-- The datagram a `sock_recvfrom` on slot `i` returns. -/
def TableEvent.reads (i : Fin maxSockets) (n : Net) : TableEvent → List DgramRead
  | .recv j len =>
      if j = i then
        (recvSource n i len).toList.map fun source => ⟨len, source, (sockRecvfrom n i len).2.1⟩
      else []
  | _ => []

/-- The network, and what has gone into and come out of the queues of one
slot. -/
structure QueueState where
  net : Net
  stored : List UInt8
  got : List UInt8
  accepted : List Dgram
  received : List DgramRead

def queueStep (i : Fin maxSockets) (st : QueueState) (e : TableEvent) : QueueState :=
  { net := e.run st.net
    stored := st.stored ++ e.bytes i st.net
    got := st.got ++ e.gives i st.net
    accepted := st.accepted ++ e.accepts i st.net
    received := st.received ++ e.reads i st.net }

/-- From the `sock_create` that returns slot `i` on. -/
def queueSystem (i : Fin maxSockets) : System QueueState TableEvent where
  init := fun st => (∃ n domain type protocol,
      sockCreate n domain type protocol = (st.net, some i)) ∧
    st.stored = [] ∧ st.got = [] ∧ st.accepted = [] ∧ st.received = []
  step := fun st e st' => e.Allowed i ∧ st' = queueStep i st e

/-- The queues of slot `i` are FIFOs. -/
structure FifoQueues (i : Fin maxSockets) (st : QueueState) : Prop where
  rxCount : (st.net.slot i).rx.count ≤ 65536
  rxTail : (st.net.slot i).rx.tail =
    ((st.net.slot i).rx.head + (st.net.slot i).rx.count) % 65536
  bytes : st.got ++ (st.net.slot i).pending = st.stored
  dgramCount : (st.net.slot i).dgram.count ≤ 16
  dgramTail : (st.net.slot i).dgram.tail =
    ((st.net.slot i).dgram.head + (st.net.slot i).dgram.count) % 16
  datagrams : ∃ gone, List.Forall₂ DgramRead.Reads st.received gone ∧
    gone ++ (st.net.slot i).queued = st.accepted
  /-- The next receive returns the oldest datagram and removes it. -/
  receive : ∀ len d rest, 0 < len → (st.net.slot i).type ≠ sockStream →
    (st.net.slot i).queued = d :: rest →
      recvSource st.net i len = some (d.srcIp, d.srcPort) ∧
      (sockRecvfrom st.net i len).2 =
        (d.data.take (min len d.data.length), ((min len d.data.length : Nat) : Int)) ∧
      ((sockRecvfrom st.net i len).1.slot i).queued = rest
  /-- What comes in for a full queue changes nothing. -/
  refused : ∀ e : TableEvent, e.datagrams i st.net ≠ [] → (st.net.slot i).dgram.count = 16 →
    (e.run st.net).slot i = st.net.slot i
  refusedUdp : ∀ srcIp srcPort dstPort payload, udpSlot st.net dstPort = some i →
    (st.net.slot i).dgram.count = 16 →
      socketUdpInput st.net srcIp srcPort dstPort payload = st.net

/-! ## What goes in -/

/-- From one socket to the other, `bs` and `ds` have gone into the queues. -/
structure Arrives (s s' : Socket) (bs : List UInt8) (ds : List Dgram) : Prop where
  refCount : s'.refCount = s.refCount
  rx : s.rx.Ok socketRxBufSize →
    s'.rx.Ok socketRxBufSize ∧ s'.pending = s.pending ++ bs
  dgram : s.dgram.Ok maxDgramQueue →
    s'.dgram.Ok maxDgramQueue ∧ s'.queued = s.queued ++ ds

section Arrivals

variable {n : Net} {i : Fin maxSockets} {s s' : Socket}

/-- Calls that do not touch the queues. -/
theorem Arrives.nothing (href : s'.refCount = s.refCount) (hrx : s'.rx = s.rx)
    (hdgram : s'.dgram = s.dgram) : Arrives s s' [] [] := by
  refine ⟨href, fun h => ?_, fun h => ?_⟩
  · rw [Socket.pending, hrx, List.append_nil]
    exact ⟨h, rfl⟩
  · rw [Socket.queued, hdgram, List.append_nil]
    exact ⟨h, rfl⟩

theorem Arrives.refl (s : Socket) : Arrives s s [] [] := .nothing rfl rfl rfl

theorem tcpStep_dgram (s : Socket) (seg : Segment) : (tcpStep s seg).dgram = s.dgram := by
  rcases tcpStep_cases s seg with ⟨_, he⟩ | ⟨_, he⟩ | ⟨_, _, he⟩ | ⟨_, _, he⟩ | ⟨_, _, he⟩ |
    ⟨_, _, _, _, he⟩ <;> rw [he] <;> rfl

/-- A segment brings bytes to the socket it is for. -/
theorem arrives_tcp (n : Net) (seg : Segment) (i : Fin maxSockets) :
    Arrives (n.slot i) ((socketTcpInput n seg).slot i) ((TableEvent.tcp seg).bytes i n) [] := by
  rw [slot_socketTcpInput, TableEvent.bytes]
  split
  · refine ⟨tcpStep_refCount _ seg, fun h => ⟨tcpStep_rx_ok h seg, tcpStep_pending h seg⟩,
      fun h => ?_⟩
    rw [Socket.queued, tcpStep_dgram, List.append_nil]
    exact ⟨h, rfl⟩
  · exact .refl _

/-- A datagram is queued if there is room. -/
theorem arrives_store (s : Socket) (d : Dgram) :
    Arrives s { s with dgram := s.dgram.store maxDgramQueue d } []
      ([d].take (maxDgramQueue - s.dgram.count)) := by
  refine ⟨rfl, fun h => ⟨h, (List.append_nil _).symm⟩, fun h => ⟨h.store d, ?_⟩⟩
  exact h.contents_store_take d

theorem slot_socketUdpInput (n : Net) (srcIp srcPort dstPort : Nat) (payload : List UInt8)
    (i : Fin maxSockets) :
    (socketUdpInput n srcIp srcPort dstPort payload).slot i =
      if udpSlot n dstPort = some i then
        { n.slot i with
          dgram := (n.slot i).dgram.store maxDgramQueue ⟨srcIp, srcPort, payload.take 1500⟩ }
      else n.slot i := by
  unfold socketUdpInput
  rw [← udpSlot]
  cases hslot : udpSlot n dstPort with
  | none => rfl
  | some j =>
      dsimp only
      rw [Net.slot_setSlot]
      by_cases hij : i = j
      · subst hij
        rw [Function.update_self, if_pos rfl]
      · rw [Function.update_of_ne hij, if_neg fun he => hij (Option.some.inj he).symm]

theorem arrives_udp (n : Net) (srcIp srcPort dstPort : Nat) (payload : List UInt8)
    (i : Fin maxSockets) :
    Arrives (n.slot i) ((socketUdpInput n srcIp srcPort dstPort payload).slot i) []
      ((TableEvent.udp srcIp srcPort dstPort payload).accepts i n) := by
  rw [slot_socketUdpInput, TableEvent.accepts, TableEvent.datagrams]
  split
  · exact arrives_store _ _
  · rw [List.take_nil]
    exact .refl _

/-- What is copied fills the packet, if there is as much. -/
theorem icmp_copied (type code id seq : Nat) {payload : List UInt8}
    (h : payload.length ≤ 65527) :
    icmpHeader type code id seq ++ payload.take (icmpCopied payload.length) =
      (icmpHeader type code id seq ++ payload).take 1500 := by
  have hcopied : icmpCopied payload.length = min payload.length 1492 := by
    unfold icmpCopied
    dsimp only
    split <;> omega
  have hheader : (icmpHeader type code id seq).length = 8 := rfl
  rw [hcopied, List.take_append, hheader, List.take_of_length_le (by omega : _ ≤ 1500), Nat.min_comm,
    ← List.take_eq_take_min]

theorem arrives_icmp (n : Net) (srcIp type code id seq : Nat) {payload : List UInt8}
    (h : payload.length ≤ 65527) (i : Fin maxSockets) :
    Arrives (n.slot i) ((socketIcmpInput n srcIp (icmpHeader type code id seq) payload).slot i) []
      ((TableEvent.icmp srcIp type code id seq payload).accepts i n) := by
  rw [TableEvent.accepts, TableEvent.datagrams]
  unfold socketIcmpInput
  dsimp only
  rw [icmp_copied type code id seq h]
  split
  · exact arrives_store _ _
  · rw [List.take_nil]
    exact .refl _

/-! ## Calls -/

/-- The queues of all sockets, and which of them are open, are as before. -/
def KeepsQueues (n n' : Net) : Prop := ∀ i, Arrives (n.slot i) (n'.slot i) [] []

theorem KeepsQueues.of_slot {n n' : Net} (h : n'.slot = n.slot) : KeepsQueues n n' := by
  intro i
  rw [h]
  exact .refl _

theorem KeepsQueues.trans {n n' n'' : Net} (h : KeepsQueues n n') (h' : KeepsQueues n' n'') :
    KeepsQueues n n'' := by
  intro i
  refine ⟨(h' i).refCount.trans (h i).refCount, fun hok => ?_, fun hok => ?_⟩
  · obtain ⟨hok', he⟩ := (h i).rx hok
    obtain ⟨hok'', he'⟩ := (h' i).rx hok'
    exact ⟨hok'', by rw [he', he, List.append_nil]⟩
  · obtain ⟨hok', he⟩ := (h i).dgram hok
    obtain ⟨hok'', he'⟩ := (h' i).dgram hok'
    exact ⟨hok'', by rw [he', he, List.append_nil]⟩

/-- A call that sets other fields of a socket. -/
theorem KeepsQueues.setSlot {j : Fin maxSockets} (href : s'.refCount = (n.slot j).refCount)
    (hrx : s'.rx = (n.slot j).rx) (hdgram : s'.dgram = (n.slot j).dgram) :
    KeepsQueues n (n.setSlot j s') := by
  intro i
  rw [Net.slot_setSlot]
  by_cases hij : i = j
  · subst hij
    rw [Function.update_self]
    exact .nothing href hrx hdgram
  · rw [Function.update_of_ne hij]
    exact .refl _

theorem keepsQueues_sendChunks (j : Fin maxSockets) (len fuel : Nat) (n : Net)
    (rest : List UInt8) : KeepsQueues n (sendChunks n j len fuel rest).1 := by
  induction fuel generalizing n rest with
  | zero => exact .of_slot rfl
  | succ fuel ih =>
      rw [sendChunks]
      split
      · exact .of_slot rfl
      dsimp only
      split
      · exact .of_slot (slot_tcpSendPacket _ _ _ _)
      · refine KeepsQueues.trans ?_ (ih _ _)
        refine KeepsQueues.trans (.of_slot (slot_tcpSendPacket n _ _ _)) (.setSlot ?_ ?_ ?_) <;>
          rfl

theorem keepsQueues_sockSendto (n : Net) (j : Fin maxSockets) (buf : List UInt8) (ip port : Nat) :
    KeepsQueues n (sockSendto n j buf ip port).1 := by
  unfold sockSendto
  dsimp only
  split
  · exact .of_slot rfl
  split
  · split
    · exact .of_slot rfl
    · exact keepsQueues_sendChunks _ _ _ _ _
  split
  · split
    · exact .of_slot rfl
    · exact .of_slot (Net.slot_transmit _ _)
  split
  · split
    · exact .of_slot rfl
    · exact .of_slot (Net.slot_transmit _ _)
  · exact .of_slot rfl

theorem keepsQueues_sockListen (n : Net) (j : Fin maxSockets) :
    KeepsQueues n (sockListen n j).1 := by
  unfold sockListen
  split
  · exact .of_slot rfl
  · exact .setSlot rfl rfl rfl

theorem keepsQueues_sockConnect (n : Net) (j : Fin maxSockets) (ip port : Nat) :
    KeepsQueues n (sockConnect n j ip port).1 := by
  unfold sockConnect
  dsimp only
  split
  · exact .setSlot rfl rfl rfl
  split
  · exact .setSlot rfl rfl rfl
  · refine KeepsQueues.trans ?_ (.of_slot (slot_tcpSendPacket _ _ _ _))
    exact .setSlot rfl rfl rfl

theorem keepsQueues_connectAgain (n : Net) (j : Fin maxSockets) :
    KeepsQueues n (connectAgain n j) := by
  unfold connectAgain
  split
  · exact .of_slot (slot_tcpSendPacket _ _ _ _)
  · exact .of_slot rfl

theorem keepsQueues_connectDone (n : Net) (j : Fin maxSockets) :
    KeepsQueues n (connectDone n j).1 := by
  unfold connectDone
  dsimp only
  split
  · exact .of_slot rfl
  split
  · exact .of_slot rfl
  · exact .setSlot rfl rfl rfl

/-- A slot that is handed out was free. -/
theorem slot_sockCreate_of_live (domain type protocol : Nat) (hlive : (n.slot i).refCount ≠ 0) :
    (sockCreate n domain type protocol).1.slot i = n.slot i := by
  rcases sockCreate_cases n domain type protocol with he | ⟨j, hfree, _, hslot⟩
  · rw [he]
  · rw [hslot, Function.update_of_ne]
    rintro rfl
    exact hlive hfree

theorem slot_sockClose_other {j : Fin maxSockets} (hij : j ≠ i) :
    (sockClose n j).1.slot i = n.slot i := by
  unfold sockClose
  dsimp only
  split
  · rw [Net.slot_setSlot, slot_tcpSendPacket, Function.update_of_ne hij.symm]
  · rw [Net.slot_setSlot, Function.update_of_ne hij.symm]

theorem slot_sockRecvfrom_other {j : Fin maxSockets} (hij : j ≠ i) (len : Nat) :
    (sockRecvfrom n j len).1.slot i = n.slot i := by
  unfold sockRecvfrom
  dsimp only
  split
  · rfl
  split
  · split
    · rfl
    · rw [Net.slot_setSlot, Function.update_of_ne hij.symm]
  split
  · rfl
  · rw [Net.slot_setSlot, Function.update_of_ne hij.symm]

/-- Everything but a receive from the socket itself adds what came in to its
queues. -/
theorem run_arrives {e : TableEvent} (hlive : (n.slot i).refCount ≠ 0) (hallowed : e.Allowed i)
    (hrecv : ∀ len, e ≠ .recv i len) :
    Arrives (n.slot i) ((e.run n).slot i) (e.bytes i n) (e.accepts i n) := by
  have hnone (h : e.datagrams i n = []) : e.accepts i n = [] := by
    rw [TableEvent.accepts, h, List.take_nil]
  cases e with
  | tcp seg =>
      rw [hnone rfl]
      exact arrives_tcp n seg i
  | udp srcIp srcPort dstPort payload => exact arrives_udp n srcIp srcPort dstPort payload i
  | icmp srcIp type code id seq payload => exact arrives_icmp n srcIp type code id seq hallowed i
  | recv j len =>
      have hij : j ≠ i := by
        rintro rfl
        exact hrecv len rfl
      rw [hnone rfl, TableEvent.run, slot_sockRecvfrom_other hij]
      exact .refl _
  | send j buf ip port =>
      rw [hnone rfl]
      exact keepsQueues_sockSendto n j buf ip port i
  | bind j ip port =>
      have hkeeps : KeepsQueues n (sockBind n j ip port).1 := .setSlot rfl rfl rfl
      rw [hnone rfl]
      exact hkeeps i
  | listen j =>
      rw [hnone rfl]
      exact keepsQueues_sockListen n j i
  | connect j ip port =>
      rw [hnone rfl]
      exact keepsQueues_sockConnect n j ip port i
  | connectAgain j =>
      rw [hnone rfl]
      exact keepsQueues_connectAgain n j i
  | connectDone j =>
      rw [hnone rfl]
      exact keepsQueues_connectDone n j i
  | create domain type protocol =>
      rw [hnone rfl, TableEvent.run, slot_sockCreate_of_live _ _ _ hlive]
      exact .refl _
  | close j =>
      rw [hnone rfl, TableEvent.run, slot_sockClose_other hallowed]
      exact .refl _
  | destroy j =>
      have hij : i ≠ j := Ne.symm hallowed
      rw [hnone rfl, TableEvent.run, sockDestroy, Net.slot_setSlot, Function.update_of_ne hij]
      exact .refl _

end Arrivals

/-! ## What comes out -/

section Receives

variable {n : Net} {i : Fin maxSockets} {d : Dgram} {rest : List Dgram}

/-- A receive with a datagram in the queue returns the oldest. -/
theorem sockRecvfrom_queued {len : Nat} (hlen : 0 < len) (htype : (n.slot i).type ≠ sockStream)
    (hok : (n.slot i).dgram.Ok maxDgramQueue) (hqueue : (n.slot i).queued = d :: rest) :
    ∃ q : RingBuffer Dgram, q.Ok maxDgramQueue ∧ q.contents maxDgramQueue = rest ∧
      recvSource n i len = some (d.srcIp, d.srcPort) ∧
      sockRecvfrom n i len = (n.setSlot i { n.slot i with dgram := q }, d.data.take len,
        int32 (d.data.take len).length) := by
  have hpos : 0 < (n.slot i).dgram.count := by
    have hcount := congrArg List.length hqueue
    rw [Socket.queued, RingBuffer.length_contents, List.length_cons] at hcount
    omega
  have hcons := hok.contents_eq_cons hpos
  rw [show (n.slot i).dgram.contents maxDgramQueue = d :: rest from hqueue] at hcons
  obtain ⟨hd, hrest⟩ := List.cons.inj hcons
  refine ⟨_, hok.take hpos, hrest.symm, ?_, ?_⟩
  · unfold recvSource
    dsimp only
    rw [if_neg, ← hd]
    rintro (h | h | h)
    · omega
    · exact htype h
    · omega
  · unfold sockRecvfrom
    dsimp only
    rw [if_neg (by omega), if_neg htype, if_neg (by omega), ← hd]

/-- A receive that returns no datagram leaves the queue alone. -/
theorem sockRecvfrom_none {len : Nat} (hsource : recvSource n i len = none)
    (htype : (n.slot i).type ≠ sockStream) : sockRecvfrom n i len = (n, [], 0) ∨
      sockRecvfrom n i len = (n, [], -35) := by
  unfold sockRecvfrom
  dsimp only
  by_cases hzero : len = 0
  · rw [if_pos hzero]
    exact .inl rfl
  rw [if_neg hzero, if_neg htype]
  by_cases hcount : (n.slot i).dgram.count = 0
  · rw [if_pos hcount]
    exact .inr rfl
  · unfold recvSource at hsource
    dsimp only at hsource
    rw [if_neg (by simp [hzero, htype, hcount])] at hsource
    cases hsource

end Receives

/-! ## Runs -/

/-- What holds of slot `i` from its `sock_create` on. -/
structure QueueInv (i : Fin maxSockets) (st : QueueState) : Prop where
  live : (st.net.slot i).refCount ≠ 0
  rx : (st.net.slot i).rx.Ok socketRxBufSize
  dgram : (st.net.slot i).dgram.Ok maxDgramQueue
  bytes : st.got ++ (st.net.slot i).pending = st.stored
  datagrams : ∃ gone, List.Forall₂ DgramRead.Reads st.received gone ∧
    gone ++ (st.net.slot i).queued = st.accepted
  short : ∀ d ∈ st.accepted, d.data.length ≤ 1500

section Run

variable {i : Fin maxSockets} {st : QueueState}

/-- `sock_create` empties both queues. -/
theorem QueueInv.of_init (h : (queueSystem i).init st) : QueueInv i st := by
  obtain ⟨⟨n, domain, type, protocol, hcreate⟩, hstored, hgot, haccepted, hreceived⟩ := h
  rcases sockCreate_cases n domain type protocol with he | ⟨j, _, hj, hslot⟩
  · rw [he] at hcreate
    cases hcreate
  · rw [hcreate] at hj hslot
    obtain rfl : i = j := Option.some.inj hj
    have hs : st.net.slot i = openSocket (n.slot i) domain type protocol n.ephemeral := by
      rw [hslot, Function.update_self]
    have hempty {cap : Nat} (hcap : 0 < cap) {α : Type} {r : RingBuffer α} :
        RingBuffer.Ok cap { r with head := 0, tail := 0, count := 0 } :=
      ⟨hcap, hcap, (Nat.zero_mod cap).symm, Nat.zero_le cap⟩
    refine ⟨?_, ?_, ?_, ?_, ⟨[], ?_, ?_⟩, ?_⟩
    · rw [hs]
      exact Int.one_ne_zero
    · rw [hs]
      exact hempty (by decide)
    · rw [hs]
      exact hempty (by decide)
    · rw [hs, hgot, hstored]
      rfl
    · rw [hreceived]
      exact .nil
    · rw [hs, haccepted]
      rfl
    · rw [haccepted]
      exact nofun

theorem datagrams_short (i : Fin maxSockets) (n : Net) (e : TableEvent) :
    ∀ d ∈ e.datagrams i n, d.data.length ≤ 1500 := by
  have hcut (l : List UInt8) : (l.take 1500).length ≤ 1500 := by
    rw [List.length_take]
    exact Nat.min_le_left _ _
  intro d hd
  unfold TableEvent.datagrams at hd
  split at hd
  · split at hd
    · rw [List.mem_singleton.mp hd]
      exact hcut _
    · cases hd
  · split at hd
    · rw [List.mem_singleton.mp hd]
      exact hcut _
    · cases hd
  · cases hd

/-- Everything but a receive: what came in stands at the end. -/
theorem QueueInv.arrive {e : TableEvent} (h : QueueInv i st) (hallowed : e.Allowed i)
    (hrecv : ∀ len, e ≠ .recv i len) : QueueInv i (queueStep i st e) := by
  have harr := run_arrives h.live hallowed hrecv
  obtain ⟨hrx, hpending⟩ := harr.rx h.rx
  obtain ⟨hdgram, hqueued⟩ := harr.dgram h.dgram
  obtain ⟨gone, hreads, hgone⟩ := h.datagrams
  have hgives : e.gives i st.net = [] := by
    unfold TableEvent.gives
    split
    · rename_i j len
      exact if_neg fun hj => hrecv len (by rw [hj.1])
    · rfl
  have hreadsNone : e.reads i st.net = [] := by
    unfold TableEvent.reads
    split
    · rename_i j len
      exact if_neg fun hj => hrecv len (by rw [hj])
    · rfl
  refine ⟨?_, hrx, hdgram, ?_, ⟨gone, ?_, ?_⟩, ?_⟩
  · show ((e.run st.net).slot i).refCount ≠ 0
    rw [harr.refCount]
    exact h.live
  · show (st.got ++ e.gives i st.net) ++ ((e.run st.net).slot i).pending = st.stored ++ _
    rw [hgives, List.append_nil, hpending, ← List.append_assoc, h.bytes]
  · show List.Forall₂ _ (st.received ++ e.reads i st.net) gone
    rw [hreadsNone, List.append_nil]
    exact hreads
  · show gone ++ ((e.run st.net).slot i).queued = st.accepted ++ _
    rw [hqueued, ← List.append_assoc, hgone]
  · intro d hd
    rcases List.mem_append.mp hd with hold | hnew
    · exact h.short d hold
    · exact datagrams_short i st.net e d (List.mem_of_mem_take hnew)

/-- A receive puts nothing in. -/
theorem recv_puts_nothing (st : QueueState) (i j : Fin maxSockets) (len : Nat) :
    (queueStep i st (.recv j len)).stored = st.stored ∧
      (queueStep i st (.recv j len)).accepted = st.accepted := by
  refine ⟨List.append_nil _, ?_⟩
  show st.accepted ++ (TableEvent.recv j len).accepts i st.net = st.accepted
  rw [TableEvent.accepts, show (TableEvent.recv j len).datagrams i st.net = [] from rfl,
    List.take_nil, List.append_nil]

/-- A stream socket gives bytes and no datagrams. -/
theorem QueueInv.receive_stream (h : QueueInv i st) (len : Nat)
    (htype : (st.net.slot i).type = sockStream) :
    QueueInv i (queueStep i st (.recv i len)) := by
  obtain ⟨gone, hreads, hgone⟩ := h.datagrams
  obtain ⟨hstored, haccepted⟩ := recv_puts_nothing st i i len
  obtain ⟨rx, hrx, hslot, hbytes⟩ := sockRecvfrom_stream len htype h.rx
  have hslot : ((queueStep i st (.recv i len)).net).slot i = { st.net.slot i with rx := rx } :=
    hslot
  have hsource : recvSource st.net i len = none := if_pos (.inr (.inl htype))
  have hgives : (TableEvent.recv i len).gives i st.net = (sockRecvfrom st.net i len).2.1 :=
    if_pos ⟨rfl, htype⟩
  refine ⟨hslot ▸ h.live, hslot ▸ hrx, hslot ▸ h.dgram, ?_, ⟨gone, ?_, ?_⟩, haccepted ▸ h.short⟩
  · rw [hslot, hstored]
    show (st.got ++ (TableEvent.recv i len).gives i st.net) ++ rx.contents socketRxBufSize = _
    rw [hgives, List.append_assoc, hbytes]
    exact h.bytes
  · show List.Forall₂ _ (st.received ++ (TableEvent.recv i len).reads i st.net) gone
    rw [TableEvent.reads, if_pos rfl, hsource]
    simpa using hreads
  · rw [hslot, haccepted]
    exact hgone

/-- Of any other socket the bytes stay. -/
theorem recv_gives_nothing (len : Nat) (htype : (st.net.slot i).type ≠ sockStream) :
    (queueStep i st (.recv i len)).got = st.got := by
  have hgives : (TableEvent.recv i len).gives i st.net = [] := if_neg fun hj => htype hj.2
  show st.got ++ (TableEvent.recv i len).gives i st.net = st.got
  rw [hgives, List.append_nil]

/-- A receive that gets no datagram changes nothing. -/
theorem QueueInv.receive_none (h : QueueInv i st) {len : Nat}
    (htype : (st.net.slot i).type ≠ sockStream) (hsource : recvSource st.net i len = none) :
    QueueInv i (queueStep i st (.recv i len)) := by
  obtain ⟨gone, hreads, hgone⟩ := h.datagrams
  obtain ⟨hstored, haccepted⟩ := recv_puts_nothing st i i len
  have hnet : (queueStep i st (.recv i len)).net = st.net := by
    show (sockRecvfrom st.net i len).1 = st.net
    rcases sockRecvfrom_none hsource htype with he | he <;> rw [he]
  refine ⟨hnet ▸ h.live, hnet ▸ h.rx, hnet ▸ h.dgram, ?_, ⟨gone, ?_, ?_⟩, haccepted ▸ h.short⟩
  · rw [hnet, hstored, recv_gives_nothing len htype]
    exact h.bytes
  · show List.Forall₂ _ (st.received ++ (TableEvent.recv i len).reads i st.net) gone
    rw [TableEvent.reads, if_pos rfl, hsource]
    simpa using hreads
  · rw [hnet, haccepted]
    exact hgone

/-- A receive that gets a datagram gets the oldest, and it is gone. -/
theorem QueueInv.receive_some (h : QueueInv i st) {len : Nat} {source : Nat × Nat}
    (htype : (st.net.slot i).type ≠ sockStream)
    (hsource : recvSource st.net i len = some source) :
    QueueInv i (queueStep i st (.recv i len)) := by
  obtain ⟨gone, hreads, hgone⟩ := h.datagrams
  obtain ⟨hstored, haccepted⟩ := recv_puts_nothing st i i len
  have hlen : 0 < len := by
    refine Nat.pos_of_ne_zero fun hzero => ?_
    rw [recvSource, if_pos (.inl hzero)] at hsource
    cases hsource
  obtain ⟨d, rest, hqueue⟩ : ∃ d rest, (st.net.slot i).queued = d :: rest := by
    refine List.exists_cons_of_ne_nil fun hempty => ?_
    have hcount := congrArg List.length hempty
    rw [Socket.queued, RingBuffer.length_contents, List.length_nil] at hcount
    rw [recvSource, if_pos (.inr (.inr hcount))] at hsource
    cases hsource
  obtain ⟨q, hq, hrest, hfrom, hrecv⟩ := sockRecvfrom_queued hlen htype h.dgram hqueue
  have hslot : ((queueStep i st (.recv i len)).net).slot i = { st.net.slot i with dgram := q } := by
    show ((sockRecvfrom st.net i len).1).slot i = _
    rw [hrecv, Net.slot_setSlot, Function.update_self]
  refine ⟨hslot ▸ h.live, hslot ▸ h.rx, hslot ▸ hq, ?_, ⟨gone ++ [d], ?_, ?_⟩,
    haccepted ▸ h.short⟩
  · rw [hslot, hstored, recv_gives_nothing len htype]
    exact h.bytes
  · show List.Forall₂ _ (st.received ++ (TableEvent.recv i len).reads i st.net) (gone ++ [d])
    rw [TableEvent.reads, if_pos rfl, hfrom, hrecv]
    refine List.rel_append hreads (.cons ⟨rfl, ?_⟩ .nil)
    exact List.take_eq_take_min
  · rw [hslot, haccepted]
    show gone ++ [d] ++ q.contents maxDgramQueue = st.accepted
    rw [hrest, List.append_assoc, ← hgone, hqueue]
    rfl

theorem QueueInv.receive (h : QueueInv i st) (len : Nat) :
    QueueInv i (queueStep i st (.recv i len)) := by
  by_cases htype : (st.net.slot i).type = sockStream
  · exact h.receive_stream len htype
  cases hsource : recvSource st.net i len with
  | none => exact h.receive_none htype hsource
  | some source => exact h.receive_some htype hsource

/-- What the invariant says of the fields, of the next receive and of the
next arrival. -/
theorem QueueInv.fifo (h : QueueInv i st) : FifoQueues i st := by
  have hstore (hfull : (st.net.slot i).dgram.count = 16) (d : Dgram) :
      (st.net.slot i).dgram.store maxDgramQueue d = (st.net.slot i).dgram :=
    RingBuffer.store_of_full (Nat.le_of_eq hfull.symm) d
  refine ⟨h.rx.count, h.rx.tail, h.bytes, h.dgram.count, h.dgram.tail, h.datagrams, ?_, ?_, ?_⟩
  · intro len d rest hlen htype hqueue
    obtain ⟨q, hq, hrest, hfrom, hrecv⟩ := sockRecvfrom_queued hlen htype h.dgram hqueue
    have hd : d.data.length ≤ 1500 := by
      obtain ⟨gone, _, hgone⟩ := h.datagrams
      refine h.short d ?_
      rw [← hgone, hqueue]
      exact List.mem_append_right _ List.mem_cons_self
    have hsize : int32 (d.data.take len).length = ((min len d.data.length : Nat) : Int) := by
      rw [int32_of_lt, List.length_take]
      rw [List.length_take]
      omega
    refine ⟨hfrom, ?_, ?_⟩
    · rw [hrecv, hsize, ← List.take_eq_take_min]
    · rw [hrecv, Net.slot_setSlot, Function.update_self]
      exact hrest
  · intro e hdatagrams hfull
    cases e with
    | udp srcIp srcPort dstPort payload =>
        rw [TableEvent.run, slot_socketUdpInput, hstore hfull]
        exact ite_self _
    | icmp srcIp type code id seq payload =>
        unfold TableEvent.run socketIcmpInput
        dsimp only
        rw [hstore hfull]
        exact ite_self _
    | _ => exact absurd rfl hdatagrams
  · intro srcIp srcPort dstPort payload hslot hfull
    unfold socketUdpInput
    rw [← udpSlot, hslot]
    dsimp only
    rw [hstore hfull, Net.setSlot, Function.update_eq_self]

end Run

/-- From its `sock_create` until it is given back, whatever comes in and
whatever is called on any socket, both receive queues of a socket are FIFOs:
what `sock_recvfrom` has returned, followed by what is queued, is what was
stored. -/
theorem receive_queues_fifo {i : Fin maxSockets} {st : QueueState} (h : (queueSystem i).Reach st) :
    FifoQueues i st := by
  have hinv : QueueInv i st := by
    refine System.ReachVia.invariant (fun _ => QueueInv.of_init) ?_ h
    rintro st e st' hi _ ⟨hallowed, rfl⟩
    by_cases hrecv : ∃ len, e = .recv i len
    · obtain ⟨len, rfl⟩ := hrecv
      exact hi.receive len
    · exact hi.arrive hallowed fun len he => hrecv ⟨len, he⟩
  exact hinv.fifo

/-- A datagram socket that has just been created. -/
def dgramState : QueueState :=
  ⟨(sockCreate bootNet afInet sockDgram 0).1, [], [], [], []⟩

/-- Two datagrams come in, and the first is received in a buffer that is too
small for it. -/
theorem queues_of_two_datagrams : ∃ st, (queueSystem 0).Reach st ∧
    st.accepted = [⟨9, 53, [1, 2, 3]⟩, ⟨8, 53, [4]⟩] ∧ st.received = [⟨2, (9, 53), [1, 2]⟩] ∧
    FifoQueues 0 st := by
  have h₀ : (queueSystem 0).Reach dgramState :=
    .init ⟨⟨bootNet, afInet, sockDgram, 0, rfl⟩, rfl, rfl, rfl, rfl⟩
  have h₁ := System.ReachVia.step h₀ (e := TableEvent.udp 9 53 49152 [1, 2, 3]) trivial
    ⟨trivial, rfl⟩
  have h₂ := System.ReachVia.step h₁ (e := TableEvent.udp 8 53 49152 [4]) trivial ⟨trivial, rfl⟩
  have h₃ := System.ReachVia.step h₂ (e := TableEvent.recv 0 2) trivial ⟨trivial, rfl⟩
  exact ⟨_, h₃, rfl, rfl, receive_queues_fifo h₃⟩

end LiteBSD
