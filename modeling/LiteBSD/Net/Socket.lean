/-
# `LiteBSD.Net.Socket` — the socket table and the TCP engine

`src/socket.c`: a table of 32 slots, a counter for automatic ports, and the
functions that system calls and the receive path call on them.

A slot is free when its `ref_count` is 0; nothing else is cleared when it is
given back.  The calls that wait (`sock_connect`, `sock_recvfrom`) poll the
network while they do.  What arrives meanwhile is a step of its own here, so
that each of them is what it does before the loop and what it does after.
`accept_queue` is never filled by any function of the source, and
`sock_accept` with it is left out.

What is handed to `ipv4_send` is recorded in `sent`.  Whether it gets through
(there is a device, and the next hop answers) is up to the oracle `link`.
-/
import LiteBSD.Exec
import Mathlib.Algebra.GroupWithZero.Nat
import LiteBSD.Lib.Ring

namespace LiteBSD

open Lib

def afUnix : Nat := 1
def afInet : Nat := 2
def sockStream : Nat := 1
def sockDgram : Nat := 2
def sockRaw : Nat := 3
def ipprotoIcmp : Nat := 1
def ipprotoTcp : Nat := 6
def ipprotoUdp : Nat := 17

def maxSockets : Nat := 32
def socketRxBufSize : Nat := 65536
def maxDgramQueue : Nat := 16

instance : NeZero maxSockets := ⟨by decide⟩

/-- `TCP_STATE_CLOSED` and so on. -/
inductive TcpState where
  | closed
  | synSent
  | established
  | finWait1
  | finWait2
  | closeWait
  | lastAck
  | timeWait
  | listen
deriving DecidableEq, Repr

def tcpFlagFin : Nat := 0x01
def tcpFlagSyn : Nat := 0x02
def tcpFlagRst : Nat := 0x04
def tcpFlagPsh : Nat := 0x08
def tcpFlagAck : Nat := 0x10

/-- `struct dgram_packet`; `len` is the length of `data`. -/
structure Dgram where
  srcIp : Nat
  srcPort : Nat
  data : List UInt8
deriving DecidableEq, Repr

/-- `struct socket`.  `rx` is the ring behind `rx_stream_buf`, which
`rxStreamBuf` tells from `NULL`. -/
structure Socket where
  domain : Nat
  type : Nat
  protocol : Nat
  state : Nat
  localIp : Nat
  localPort : Nat
  remoteIp : Nat
  remotePort : Nat
  tcpState : TcpState
  localSeq : Nat
  remoteSeq : Nat
  remoteWindow : Nat
  finReceived : Bool
  rxStreamBuf : Bool
  rx : RingBuffer UInt8
  dgram : RingBuffer Dgram
  nonblocking : Bool
  error : Nat
  refCount : Int

/-- A packet on its way out. -/
inductive Packet where
  | tcp (dstIp srcPort dstPort seq ack flags : Nat) (payload : List UInt8)
  | udp (dstIp srcPort dstPort len : Nat) (payload : List UInt8)
  | raw (dstIp proto : Nat) (payload : List UInt8)
deriving DecidableEq, Repr

/-- The statics of `socket.c`, and the network behind them. -/
structure Net where
  slot : Fin maxSockets → Socket
  ephemeral : Nat
  sent : List Packet
  tries : Nat
  link : Nat → Bool

namespace Net

def setSlot (n : Net) (i : Fin maxSockets) (s : Socket) : Net :=
  { n with slot := Function.update n.slot i s }

/-- `ipv4_send`: the packet gets out, or it does not. -/
def transmit (n : Net) (p : Packet) : Net × Int :=
  if n.link n.tries then ({ n with sent := n.sent ++ [p], tries := n.tries + 1 }, 0)
  else ({ n with tries := n.tries + 1 }, -1)

end Net

def nextEphemeralPort (n : Net) : Net × Nat :=
  let next := (n.ephemeral + 1) % 65536
  ({ n with ephemeral := if next > 65000 then 49152 else next }, n.ephemeral)

/-- The segment `tcp_send_packet` builds for a socket. -/
def tcpPacket (s : Socket) (flags : Nat) (payload : List UInt8) : Packet :=
  .tcp s.remoteIp s.localPort s.remotePort s.localSeq
    (if flags &&& tcpFlagAck ≠ 0 then s.remoteSeq else 0) flags payload

def tcpSendPacket (n : Net) (s : Socket) (flags : Nat) (payload : List UInt8) : Net × Int :=
  n.transmit (tcpPacket s flags payload)

/-! ## Slots -/

/-- The first slot that is free. -/
def freeSlot (n : Net) : Option (Fin maxSockets) :=
  (List.finRange maxSockets).find? fun i => (n.slot i).refCount = 0

/-- What `sock_create` stores into the slot. -/
def openSocket (s : Socket) (domain type protocol port : Nat) : Socket :=
  { s with
    domain := domain, type := type, protocol := protocol, state := 1, refCount := 1
    localIp := 0, localPort := port, remoteIp := 0, remotePort := 0
    tcpState := .closed, localSeq := 0, remoteSeq := 0, remoteWindow := 65535
    finReceived := false
    rx := { s.rx with head := 0, tail := 0, count := 0 }
    rxStreamBuf := s.rxStreamBuf || type = sockStream
    dgram := { s.dgram with head := 0, tail := 0, count := 0 }
    nonblocking := false, error := 0 }

def sockCreate (n : Net) (domain type protocol : Nat) : Net × Option (Fin maxSockets) :=
  if domain ≠ afInet ∧ domain ≠ afUnix then (n, none)
  else
    match freeSlot n with
    | none => (n, none)
    | some i =>
        let (n, port) := nextEphemeralPort n
        (n.setSlot i (openSocket (n.slot i) domain type protocol port), some i)

def sockDestroy (n : Net) (i : Fin maxSockets) : Net :=
  n.setSlot i { n.slot i with state := 0, refCount := 0, tcpState := .closed }

def sockBind (n : Net) (i : Fin maxSockets) (ip port : Nat) : Net × Int :=
  (n.setSlot i { n.slot i with localIp := ip, localPort := port }, 0)

def sockListen (n : Net) (i : Fin maxSockets) : Net × Int :=
  if (n.slot i).type ≠ sockStream then (n, -1)
  else (n.setSlot i { n.slot i with tcpState := .listen }, 0)

/-! ## Connecting and closing -/

/-- `sock_connect` up to its loop; the result when there is no loop. -/
def sockConnect (n : Net) (i : Fin maxSockets) (ip port : Nat) : Net × Option Int :=
  let s := { n.slot i with remoteIp := ip, remotePort := port }
  if s.type = sockDgram ∨ s.type = sockRaw then (n.setSlot i s, some 0)
  else if s.type ≠ sockStream then (n.setSlot i s, some (-1))
  else
    let s := { s with
      tcpState := .synSent, localSeq := 100000 + s.localPort * 100, remoteSeq := 0, error := 0
      finReceived := false }
    ((tcpSendPacket (n.setSlot i s) s tcpFlagSyn []).1, none)

/-- The second `SYN` of `sock_connect`, half-way through its loop. -/
def connectAgain (n : Net) (i : Fin maxSockets) : Net :=
  if (n.slot i).tcpState = .synSent then (tcpSendPacket n (n.slot i) tcpFlagSyn []).1 else n

/-- `sock_connect` behind its loop. -/
def connectDone (n : Net) (i : Fin maxSockets) : Net × Int :=
  let s := n.slot i
  if s.tcpState = .established then (n, 0)
  else if s.error ≠ 0 then (n, -s.error)
  else (n.setSlot i { s with tcpState := .closed, error := 110 }, -110)

def sockClose (n : Net) (i : Fin maxSockets) : Net × Int :=
  let s := n.slot i
  if s.type = sockStream ∧ s.tcpState = .established then
    let n := (tcpSendPacket n s (tcpFlagAck ||| tcpFlagFin) []).1
    (n.setSlot i { s with
      localSeq := u32 (s.localSeq + 1), tcpState := .finWait1, state := 0, refCount := 0 }, 0)
  else (n.setSlot i { s with state := 0, refCount := 0 }, 0)

/-! ## Sending -/

/-- The loop of `sock_sendto` over chunks of 1460 bytes, with what is left
to send. -/
def sendChunks (n : Net) (i : Fin maxSockets) (len : Nat) : Nat → List UInt8 → Net × Int
  | 0, _ => (n, int32 len)
  | fuel + 1, rest =>
      if rest = [] then (n, int32 len)
      else
        let chunk := rest.take 1460
        let (n, r) := tcpSendPacket n (n.slot i) (tcpFlagAck ||| tcpFlagPsh) chunk
        if r < 0 then (n, if len = rest.length then -1 else int32 (len - rest.length))
        else
          let s := n.slot i
          sendChunks (n.setSlot i { s with localSeq := u32 (s.localSeq + chunk.length) }) i len fuel
            (rest.drop 1460)

def sockSendto (n : Net) (i : Fin maxSockets) (buf : List UInt8) (dstIp dstPort : Nat) :
    Net × Int :=
  let s := n.slot i
  let targetIp := if dstIp ≠ 0 then dstIp else s.remoteIp
  let targetPort := if dstPort ≠ 0 then dstPort else s.remotePort
  let len := buf.length
  if len = 0 then (n, 0)
  else if s.type = sockStream then
    if s.tcpState ≠ .established then (n, -1) else sendChunks n i len len buf
  else if s.type = sockDgram then
    let total := (8 + len % 65536) % 65536
    -- `ipv4_send` refuses more than 1480 bytes
    if total > 1480 then (n, -1)
    else
      let (n, r) := n.transmit
        (.udp targetIp s.localPort targetPort total ((buf.take 1472).take (total - 8)))
      (n, if r = 0 then int32 len else -1)
  else if s.type = sockRaw then
    let proto := if s.protocol ≠ 0 then s.protocol % 256 else ipprotoIcmp
    if len % 65536 > 1480 then (n, -1)
    else
      let (n, r) := n.transmit (.raw targetIp proto (buf.take (len % 65536)))
      (n, if r = 0 then int32 len else -1)
  else (n, -1)

/-! ## Receiving -/

/-- `sock_recvfrom` behind its loop: the bytes it stores and its result. -/
def sockRecvfrom (n : Net) (i : Fin maxSockets) (len : Nat) : Net × List UInt8 × Int :=
  let s := n.slot i
  if len = 0 then (n, [], 0)
  else if s.type = sockStream then
    if s.rx.count = 0 then
      (n, [], if s.finReceived ∨ s.tcpState = .closed then 0 else -35)
    else
      let toCopy := if len < s.rx.count then len else s.rx.count
      let (bytes, rx) := s.rx.take socketRxBufSize toCopy
      (n.setSlot i { s with rx := rx }, bytes, int32 toCopy)
  else if s.dgram.count = 0 then (n, [], -35)
  else
    let pkt := s.dgram.cells s.dgram.head
    let (_, dgram) := s.dgram.take maxDgramQueue 1
    let bytes := pkt.data.take len
    (n.setSlot i { s with dgram := dgram }, bytes, int32 bytes.length)

/-- A TCP segment as `ipv4_rx` hands it on.  `len` of the source is the
length of the payload. -/
structure Segment where
  srcIp : Nat
  srcPort : Nat
  dstPort : Nat
  seq : Nat
  ack : Nat
  flags : Nat
  window : Nat
  payload : List UInt8
deriving DecidableEq, Repr

/-- Does `socket_tcp_input` take the socket for the segment? -/
def tcpMatch (s : Socket) (seg : Segment) : Bool :=
  s.refCount ≠ 0 ∧ s.type = sockStream ∧ s.localPort = seg.dstPort ∧
    (s.remoteIp = 0 ∨ s.remoteIp = seg.srcIp)

/-- The slot that gets the segment. -/
def tcpSlot (n : Net) (seg : Segment) : Option (Fin maxSockets) :=
  (List.finRange maxSockets).find? fun i => tcpMatch (n.slot i) seg

/-- The data part of `socket_tcp_input`. -/
def tcpData (s : Socket) (payload : List UInt8) : Socket :=
  { s with
    rx := s.rx.storeAll socketRxBufSize payload
    remoteSeq := u32 (s.remoteSeq + payload.length) }

/-- The FIN part of `socket_tcp_input`. -/
def tcpFin (s : Socket) : Socket :=
  { s with
    finReceived := true
    remoteSeq := u32 (s.remoteSeq + 1)
    tcpState := if s.tcpState = .established then .closeWait else s.tcpState }

/-- `socket_tcp_input` on the socket it has found. -/
def tcpInputAt (n : Net) (i : Fin maxSockets) (seg : Segment) : Net :=
  let s := n.slot i
  if seg.flags &&& tcpFlagRst ≠ 0 then n.setSlot i { s with tcpState := .closed, error := 104 }
  else if s.tcpState = .synSent then
    if seg.flags &&& (tcpFlagSyn ||| tcpFlagAck) = tcpFlagSyn ||| tcpFlagAck then
      let s := { s with
        remoteSeq := u32 (seg.seq + 1), localSeq := seg.ack, remoteWindow := seg.window
        tcpState := .established }
      (tcpSendPacket (n.setSlot i s) s tcpFlagAck []).1
    else n
  else if s.tcpState = .established ∨ s.tcpState = .finWait1 ∨ s.tcpState = .finWait2 then
    let (n, s) :=
      if 0 < seg.payload.length ∧ s.rxStreamBuf then
        let s := tcpData s seg.payload
        ((tcpSendPacket (n.setSlot i s) s tcpFlagAck []).1, s)
      else (n, s)
    if seg.flags &&& tcpFlagFin ≠ 0 then
      let n := (tcpSendPacket n { s with finReceived := true, remoteSeq := u32 (s.remoteSeq + 1) }
        tcpFlagAck []).1
      n.setSlot i (tcpFin s)
    else n
  else n

def socketTcpInput (n : Net) (seg : Segment) : Net :=
  match tcpSlot n seg with
  | none => n
  | some i => tcpInputAt n i seg

def udpMatch (s : Socket) (dstPort : Nat) : Bool :=
  s.refCount ≠ 0 ∧ s.type = sockDgram ∧ (s.localPort = dstPort ∨ s.localPort = 0)

def socketUdpInput (n : Net) (srcIp srcPort dstPort : Nat) (payload : List UInt8) : Net :=
  match (List.finRange maxSockets).find? fun i => udpMatch (n.slot i) dstPort with
  | none => n
  | some i =>
      let s := n.slot i
      n.setSlot i { s with
        dgram := s.dgram.store maxDgramQueue ⟨srcIp, srcPort, payload.take 1500⟩ }

/-- The table before the first call: every slot is free. -/
def NetBoot (n : Net) : Prop :=
  (∀ i, (n.slot i).refCount = 0 ∧ (n.slot i).state = 0 ∧ (n.slot i).rxStreamBuf = false) ∧
    n.ephemeral = 49152 ∧ n.sent = []

end LiteBSD
