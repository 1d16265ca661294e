/-
# `LiteBSD.Net.Lan` — machines on one wire

Any number of machines with the stack of `src/netstack.c` on one wire.  The
programs above call `ipv4_send`, the wire hands any frame that was ever sent to
any machine, at any time and as often as it likes, and a machine in
`arp_resolve` looks into its cache again after each poll of its card.

`ipv4_send` may be called while another call waits: `dev->poll` hands over
frames, and an echo request is answered in place.  The later call ends first, so
the calls under way are a stack (`waits`).  What `icmp_rx` does behind its reply
is kept with the call (`behind`).  A card that refuses a frame is a wire that
loses it.

In every state of every run (`lan_genuine`):

  * every entry of every cache is the address of a machine (`TrueCache`);
  * every frame is one that its sender makes, for a call of `ipv4_send`, and is
    addressed to the machine that has the next hop, or to everyone;
  * everything that a socket is handed was sent: it is the message of a call of
    `ipv4_send` on the machine whose address is given as its source;
  * every echo reply answers a request.

The receive path of one machine is the one of `LiteBSD.Net.Frame`, which does
not say where a reply goes (`ethernetRx_same`).
-/
import LiteBSD.Lib.Network
import LiteBSD.Net.Arp
import LiteBSD.Net.Delivery

namespace LiteBSD

open Lib

namespace Lan

/-! ## One machine -/

/-- A call of `ipv4_send`. -/
structure IpSend where
  dstIp : Nat
  proto : Nat
  payload : List UInt8
deriving DecidableEq, Repr

/-- A call in the loop of `arp_resolve`: the rounds that are left, and what is
handed to the sockets behind the call. -/
structure Wait where
  send : IpSend
  retries : Nat
  behind : List Input
deriving DecidableEq, Repr

/-- The statics of `netstack.c` and the device, the calls under way with the
latest first, and what the sockets have been handed. -/
structure Host where
  dev : NetConfig
  arp : Fin arpTableSize → ArpEntry
  ipId : Nat
  waits : List Wait
  inputs : List Input

/-- What is on record: the frames, and for the theorems the calls.  Does the
call answer an echo request? -/
inductive Note where
  | frame (bytes : List UInt8)
  | call (c : IpSend) (reply : Bool)
deriving DecidableEq, Repr

/-- The packet of `arp_resolve` and `arp_rx`. -/
def arpPacket (opcode : Nat) (senderMac : Mac) (senderIp : Nat) (targetMac : Mac) (targetIp : Nat) : List UInt8 :=
  putBe16 1 ++ putBe16 0x0800 ++ [6, 4] ++ putBe16 opcode ++ senderMac.bytes ++ putLe32 senderIp ++ targetMac.bytes ++
    putLe32 targetIp

def broadcast : Mac := ⟨bcastMac, rfl⟩

def noMac : Mac := ⟨List.replicate 6 0, rfl⟩

def frameNotes (frame : Option (List UInt8)) : List Note := (frame.map Note.frame).toList

def askFor (dev : NetConfig) (targetIp : Nat) : List Note :=
  frameNotes (ethernetSend dev broadcast ethertypeArp (arpPacket 1 dev.mac dev.ip noMac targetIp))

/-- The address of six bytes at `off`. -/
def macAt (m : Nat → UInt8) (off : Nat) : Mac := ⟨slice m off 6, length_slice _ _ _⟩

/-- An entry of the cache, as an address of six bytes. -/
def macOf (bytes : List UInt8) : Option Mac := if h : bytes.length = 6 then some ⟨bytes, h⟩ else none

namespace Host

/-- The answer of `arp_resolve` that needs no frame. -/
def resolved (h : Host) (targetIp : Nat) : Option Mac :=
  if targetIp = 0xFFFFFFFF then some broadcast else (arpLookup h.arp targetIp).bind macOf

def handUp (h : Host) (inputs : List Input) : Host := { h with inputs := h.inputs ++ inputs }

/-- `ipv4_send` behind `arp_resolve`, which has found `mac`. -/
def goesOut (h : Host) (mac : Mac) (c : IpSend) (behind : List Input) : Host × List Note :=
  ({ h with ipId := (h.ipId + 1) % 65536 }.handUp behind,
    frameNotes (LiteBSD.ipv4Send h.dev (fun _ => some mac) h.ipId c.dstIp c.proto c.payload))

/-- `ipv4_send`, up to the loop of `arp_resolve` if there is one. -/
def ipv4Send (h : Host) (c : IpSend) (behind : List Input) : Host × List Note :=
  if c.payload.length > 1480 then (h.handUp behind, [])
  else
    match h.resolved (nextHop h.dev c.dstIp) with
    | some mac => h.goesOut mac c behind
    | none => ({ h with waits := ⟨c, 200, behind⟩ :: h.waits }, askFor h.dev (nextHop h.dev c.dstIp))

/-- A round of the loop, behind the poll. -/
def lookAgain (h : Host) : Host × List Note :=
  match h.waits with
  | [] => (h, [])
  | w :: waits =>
      let h := { h with waits := waits }
      match h.resolved (nextHop h.dev w.send.dstIp) with
      | some mac => h.goesOut mac w.send w.behind
      | none =>
          if w.retries ≤ 1 then (h.handUp w.behind, [])
          else ({ h with waits := { w with retries := w.retries - 1 } :: waits }, [])

/-- `arp_rx` -/
def arpRx (h : Host) (m : Nat → UInt8) (off len : Nat) : Host × List Note :=
  if len < 28 then (h, [])
  else
    let senderMac := macAt m (off + 8)
    let senderIp := le32 m (off + 14)
    let h := { h with arp := arpAddEntry h.arp senderIp senderMac.bytes }
    if be16 m (off + 6) = 1 ∧ le32 m (off + 24) = h.dev.ip then
      (h, frameNotes (ethernetSend h.dev senderMac ethertypeArp (arpPacket 2 h.dev.mac h.dev.ip senderMac senderIp)))
    else (h, [])

/-- What is behind the IP header: an echo request is answered first. -/
def messageRx (h : Host) (m : Nat → UInt8) (srcIp proto off len : Nat) : Host × List Note :=
  let inputs := (transport m srcIp proto off len).toList
  if proto = ipprotoIcmp ∧ 8 ≤ len ∧ byteAt m off = 8 then
    let c : IpSend := ⟨srcIp, ipprotoIcmp, echoReply (slice m off (icmpLen m off len))⟩
    let (h, out) := h.ipv4Send c inputs
    (h, .call c true :: out)
  else (h.handUp inputs, [])

/-- `ipv4_rx` -/
def ipv4Rx (h : Host) (m : Nat → UInt8) (off len : Nat) : Host × List Note :=
  if len < 20 then (h, [])
  else
    let ihl := ipIhl m off
    if ipVersion m off ≠ 4 ∨ ihl < 20 ∨ len < ihl then (h, [])
    else
      let totalLen := be16 m (off + 2)
      let totalLen := if totalLen > len then len else totalLen
      h.messageRx m (le32 m (off + 12)) (byteAt m (off + 9)) (off + ihl) (sub16 totalLen ihl)

/-- `ethernet_rx` -/
def ethernetRx (h : Host) (m : Nat → UInt8) (len : Nat) : Host × List Note :=
  if len < 14 then (h, [])
  else
    let ethertype := be16 m 12
    if ethertype = ethertypeArp then h.arpRx m 14 (len - 14)
    else if ethertype = ethertypeIpv4 then h.ipv4Rx m 14 (len - 14)
    else (h, [])

end Host

/-! ## The wire -/

/-- A program sends, a frame comes in, or a round of the loop in `arp_resolve`. -/
inductive LanEvent where
  | send (c : IpSend)
  | receive (m : Nat → UInt8) (len : Nat)
  | lookAgain

def LanEvent.run (h : Host) : LanEvent → Host × List Note
  | send c =>
      let (h, out) := h.ipv4Send c []
      (h, .call c false :: out)
  | receive m len => h.ethernetRx m len
  | lookAgain => h.lookAgain

/-- The card has put a frame there that was sent, with anything behind it. -/
def Arrived {ι : Type} (J : List (ι × Note)) : LanEvent → Prop
  | .receive m len => ∃ i frame, (i, Note.frame frame) ∈ J ∧ HoldsAt m 0 frame ∧ frame.length ≤ len
  | _ => True

/-- The addresses of the machines. -/
structure Config (ι : Type) where
  dev : ι → NetConfig
  ip_lt : ∀ i, (dev i).ip < 4294967296

/-- The machines as they come up, with nothing in their caches. -/
structure Boot (dev : NetConfig) (h : Host) : Prop where
  dev : h.dev = dev
  arp : ∀ k, (h.arp k).valid = false
  waits : h.waits = []
  inputs : h.inputs = []

def lan {ι : Type} (K : Config ι) : Network ι Host LanEvent Note where
  init i h := Boot (K.dev i) h
  enabled J _ _ e := Arrived J e
  step _ h e := e.run h

/-! ## What holds on the wire -/

section Genuine

variable {ι : Type} (K : Config ι)

/-- Every entry is the address of a machine. -/
def TrueCache (t : Fin arpTableSize → ArpEntry) : Prop :=
  ∀ k, (t k).valid = true → ∃ j, (K.dev j).ip = (t k).ip ∧ (K.dev j).mac.bytes = (t k).mac

/-- A frame for this hop is for the machine that has the address, or for everyone. -/
def HopMac (hop : Nat) (mac : Mac) : Prop :=
  (hop = 0xFFFFFFFF ∧ mac = broadcast) ∨ ∃ j, (K.dev j).ip = hop ∧ (K.dev j).mac = mac

/-- A machine has sent the message, and the input gives its address as the source. -/
def Sent (J : List (ι × Note)) (x : Input) : Prop :=
  ∃ j c reply, (j, Note.call c reply) ∈ J ∧ messageInput (K.dev j).ip (c.proto % 256) c.payload = some x

/-- The frame of a packet for address resolution. -/
def arpFrame (dev : NetConfig) (dstMac : Mac) (opcode : Nat) (targetMac : Mac) (targetIp : Nat) : List UInt8 :=
  dstMac.bytes ++ dev.mac.bytes ++ putBe16 ethertypeArp ++ arpPacket opcode dev.mac dev.ip targetMac targetIp

/-- In a frame for address resolution the machine says its own address. -/
def ArpFrame (dev : NetConfig) (frame : List UInt8) : Prop :=
  ∃ dstMac opcode targetMac targetIp, frame = arpFrame dev dstMac opcode targetMac targetIp

/-- The frame carries the message of a call to its next hop. -/
def MessageFrame (J : List (ι × Note)) (i : ι) (frame : List UInt8) : Prop :=
  ∃ c reply mac ipId, (i, Note.call c reply) ∈ J ∧ HopMac K (nextHop (K.dev i) c.dstIp) mac ∧
    LiteBSD.ipv4Send (K.dev i) (fun _ => some mac) ipId c.dstIp c.proto c.payload = some frame

/-- The call sends back what an echo request on record has brought. -/
def Answers (J : List (ι × Note)) (c : IpSend) : Prop :=
  ∃ j request reply, (j, Note.call request reply) ∈ J ∧ request.proto % 256 = ipprotoIcmp ∧
    8 ≤ request.payload.length ∧ request.payload.head? = some 8 ∧
    c = ⟨(K.dev j).ip, ipprotoIcmp, echoReply request.payload⟩

def Genuine (J : List (ι × Note)) (i : ι) : Note → Prop
  | .frame bytes => ArpFrame (K.dev i) bytes ∨ MessageFrame K J i bytes
  | .call c reply => reply = true → Answers K J c

/-- A call that waits was made by the machine, and the next hop has been asked. -/
structure Asked (J : List (ι × Note)) (i : ι) (c : IpSend) : Prop where
  call : ∃ reply, (i, Note.call c reply) ∈ J
  size : c.payload.length ≤ 1480
  request : (i, Note.frame (arpFrame (K.dev i) broadcast 1 noMac (nextHop (K.dev i) c.dstIp))) ∈ J

structure Honest (J : List (ι × Note)) (i : ι) (h : Host) : Prop where
  dev : h.dev = K.dev i
  cache : TrueCache K h.arp
  unique : UniqueIps h.arp
  calls : ∀ w ∈ h.waits, Asked K J i w.send
  behind : ∀ w ∈ h.waits, ∀ x ∈ w.behind, Sent K J x
  inputs : ∀ x ∈ h.inputs, Sent K J x

/-- A function of the machine keeps it honest, and so is what it sends. -/
structure Fair (J : List (ι × Note)) (i : ι) (r : Host × List Note) : Prop where
  host : Honest K J i r.1
  notes : ∀ x ∈ r.2, Genuine K J i x

end Genuine

section Steps

variable {ι : Type} {K : Config ι} {J J' : List (ι × Note)} {i j : ι} {h : Host} {c : IpSend} {behind : List Input}

theorem Sent.mono (hJ : J ⊆ J') {x : Input} (h : Sent K J x) : Sent K J' x := by
  obtain ⟨j, c, reply, hcall, hx⟩ := h
  exact ⟨j, c, reply, hJ hcall, hx⟩

theorem Genuine.mono (hJ : J ⊆ J') {x : Note} (h : Genuine K J i x) : Genuine K J' i x := by
  cases x with
  | frame bytes =>
      refine h.imp_right ?_
      rintro ⟨c, reply, mac, ipId, hcall, hrest⟩
      exact ⟨c, reply, mac, ipId, hJ hcall, hrest⟩
  | call c reply =>
      intro hreply
      obtain ⟨j, request, reply, hcall, hrest⟩ := h hreply
      exact ⟨j, request, reply, hJ hcall, hrest⟩

theorem Asked.mono (hJ : J ⊆ J') (h : Asked K J i c) : Asked K J' i c := by
  obtain ⟨reply, hcall⟩ := h.call
  exact ⟨⟨reply, hJ hcall⟩, h.size, hJ h.request⟩

theorem Honest.mono (hJ : J ⊆ J') (hh : Honest K J i h) : Honest K J' i h :=
  ⟨hh.dev, hh.cache, hh.unique, fun w hw => (hh.calls w hw).mono hJ, fun w hw x hx => (hh.behind w hw x hx).mono hJ,
    fun x hx => (hh.inputs x hx).mono hJ⟩

/-- What every party knows, and what is promised of every note. -/
def contract (K : Config ι) : Network.Contract ι Host Note where
  party := Honest K
  message := Genuine K
  party_mono hJ h := h.mono hJ
  message_mono hJ h := h.mono hJ

theorem Honest.handUp (hh : Honest K J i h) {inputs : List Input} (hx : ∀ x ∈ inputs, Sent K J x) :
    Honest K J i (h.handUp inputs) := by
  refine ⟨hh.dev, hh.cache, hh.unique, hh.calls, hh.behind, fun x hmem => ?_⟩
  rcases List.mem_append.mp hmem with hold | hnew
  · exact hh.inputs x hold
  · exact hx x hnew

/-- A lookup gives the address of a machine. -/
theorem TrueCache.hop {t : Fin arpTableSize → ArpEntry} (ht : TrueCache K t) {ip : Nat} {bytes : List UInt8}
    (hl : arpLookup t ip = some bytes) : ∃ j, (K.dev j).ip = ip ∧ (K.dev j).mac.bytes = bytes := by
  obtain ⟨k, hk, rfl⟩ := Option.map_eq_some_iff.mp hl
  obtain ⟨hvalid, hip⟩ : (t k).valid = true ∧ (t k).ip = ip := by simpa using List.find?_some hk
  exact hip ▸ ht k hvalid

theorem macOf_bytes (mac : Mac) : macOf mac.bytes = some mac := by
  rw [macOf, dif_pos mac.six]

theorem Honest.resolved (hh : Honest K J i h) {hop : Nat} {mac : Mac} (hr : h.resolved hop = some mac) :
    HopMac K hop mac := by
  unfold Host.resolved at hr
  split at hr
  · rename_i hall
    exact .inl ⟨hall, (Option.some.inj hr).symm⟩
  · obtain ⟨bytes, hl, hmac⟩ := Option.bind_eq_some_iff.mp hr
    obtain ⟨j, hj, rfl⟩ := hh.cache.hop hl
    rw [macOf_bytes] at hmac
    exact .inr ⟨j, hj, Option.some.inj hmac⟩

theorem arpPacket_length (opcode senderIp targetIp : Nat) (senderMac targetMac : Mac) :
    (arpPacket opcode senderMac senderIp targetMac targetIp).length = 28 := by
  simp only [arpPacket, List.length_append, List.length_cons, List.length_nil, putBe16_length, putLe32_length,
    senderMac.six, targetMac.six]

theorem ethernetSend_arp (dev : NetConfig) (dstMac targetMac : Mac) (opcode targetIp : Nat) :
    ethernetSend dev dstMac ethertypeArp (arpPacket opcode dev.mac dev.ip targetMac targetIp) =
      some (arpFrame dev dstMac opcode targetMac targetIp) := by
  rw [ethernetSend, arpPacket_length, if_neg (by decide)]
  rfl

theorem askFor_eq (dev : NetConfig) (targetIp : Nat) :
    askFor dev targetIp = [.frame (arpFrame dev broadcast 1 noMac targetIp)] := by
  rw [askFor, ethernetSend_arp]
  rfl

theorem frameNotes_genuine {frame : Option (List UInt8)} (hf : ∀ bytes, frame = some bytes → Genuine K J i (.frame bytes)) :
    ∀ x ∈ frameNotes frame, Genuine K J i x := by
  intro x hx
  cases frame with
  | none => cases hx
  | some bytes =>
      obtain rfl := List.mem_singleton.mp hx
      exact hf bytes rfl

theorem Honest.goesOut (hh : Honest K J i h) {mac : Mac} {reply : Bool} (hcall : (i, Note.call c reply) ∈ J)
    (hmac : HopMac K (nextHop h.dev c.dstIp) mac) (hx : ∀ x ∈ behind, Sent K J x) :
    Fair K J i (h.goesOut mac c behind) := by
  have hnext : Honest K J i { h with ipId := (h.ipId + 1) % 65536 } :=
    ⟨hh.dev, hh.cache, hh.unique, hh.calls, hh.behind, hh.inputs⟩
  refine ⟨hnext.handUp hx, frameNotes_genuine fun bytes hbytes => .inr ⟨c, reply, mac, h.ipId, hcall, ?_, ?_⟩⟩
  · rw [← hh.dev]
    exact hmac
  · rw [← hh.dev]
    exact hbytes

theorem Honest.ipv4Send (hh : Honest K J i h) {reply : Bool} (hcall : (i, Note.call c reply) ∈ J)
    (hx : ∀ x ∈ behind, Sent K J x) (hout : ∀ x ∈ (h.ipv4Send c behind).2, (i, x) ∈ J) :
    Fair K J i (h.ipv4Send c behind) := by
  unfold Host.ipv4Send at hout ⊢
  split
  · exact ⟨hh.handUp hx, nofun⟩
  rename_i hlong
  rw [if_neg hlong] at hout
  split
  · rename_i mac hmac
    exact hh.goesOut hcall (hh.resolved hmac) hx
  · rename_i hnone
    rw [hnone, hh.dev] at hout
    dsimp only at hout ⊢
    rw [askFor_eq] at hout
    have hasked : Asked K J i c := ⟨⟨reply, hcall⟩, Nat.le_of_not_lt hlong, hout _ List.mem_cons_self⟩
    rw [hh.dev, askFor_eq]
    refine ⟨⟨rfl, hh.cache, hh.unique, fun w hw => ?_, fun w hw => ?_, hh.inputs⟩, ?_⟩
    · rcases List.mem_cons.mp hw with rfl | hw
      · exact hasked
      · exact hh.calls w hw
    · rcases List.mem_cons.mp hw with rfl | hw
      · exact hx
      · exact hh.behind w hw
    · intro x hx
      obtain rfl := List.mem_singleton.mp hx
      exact .inl ⟨_, _, _, _, rfl⟩

theorem Honest.lookAgain (hh : Honest K J i h) : Fair K J i h.lookAgain := by
  unfold Host.lookAgain
  split
  · exact ⟨hh, nofun⟩
  · rename_i w waits hwaits
    have hw : w ∈ h.waits := by
      rw [hwaits]
      exact List.mem_cons_self
    have hrest : Honest K J i { h with waits := waits } := by
      refine ⟨hh.dev, hh.cache, hh.unique, fun v hv => hh.calls v ?_, fun v hv => hh.behind v ?_, hh.inputs⟩
      · rw [hwaits]
        exact List.mem_cons_of_mem w hv
      · rw [hwaits]
        exact List.mem_cons_of_mem w hv
    obtain ⟨reply, hcall⟩ := (hh.calls w hw).call
    dsimp only
    split
    · rename_i mac hmac
      exact hrest.goesOut hcall (hrest.resolved hmac) (hh.behind w hw)
    split
    · exact ⟨hrest.handUp (hh.behind w hw), nofun⟩
    · refine ⟨⟨hh.dev, hh.cache, hh.unique, fun v hv => ?_, fun v hv => ?_, hh.inputs⟩, nofun⟩
      · rcases List.mem_cons.mp hv with rfl | hv
        · exact hh.calls w hw
        · exact hrest.calls v hv
      · rcases List.mem_cons.mp hv with rfl | hv
        · exact hh.behind w hw
        · exact hrest.behind v hv

/-! ## A frame comes in -/

theorem TrueCache.add {t : Fin arpTableSize → ArpEntry} (ht : TrueCache K t) (j : ι) :
    TrueCache K (arpAddEntry t (K.dev j).ip (K.dev j).mac.bytes) := by
  have hupdate : ∀ k, TrueCache K (Function.update t k ⟨(K.dev j).ip, (K.dev j).mac.bytes, true⟩) := by
    intro k l hl
    by_cases hlk : l = k
    · subst hlk
      rw [Function.update_self]
      exact ⟨j, rfl, rfl⟩
    · rw [Function.update_of_ne hlk] at hl ⊢
      exact ht l hl
  rcases arpAddEntry_cases t (K.dev j).ip (K.dev j).mac.bytes with ⟨k, -, -, he⟩ | ⟨-, k, -, he⟩ | ⟨-, -, he⟩
  · rw [he]
    exact hupdate k
  · rw [he]
    exact hupdate k
  · rw [he]
    exact ht

/-- What `arp_rx` finds in a packet for address resolution. -/
structure ArpFields (m : Nat → UInt8) (off opcode senderIp targetIp : Nat) (senderMac : Mac) : Prop where
  opcode : be16 m (off + 6) = opcode
  senderMac : macAt m (off + 8) = senderMac
  senderIp : le32 m (off + 14) = senderIp
  targetIp : le32 m (off + 24) = targetIp

theorem arpPacket_fields {m : Nat → UInt8} {off opcode senderIp targetIp : Nat} {senderMac targetMac : Mac}
    (h : HoldsAt m off (arpPacket opcode senderMac senderIp targetMac targetIp)) :
    ArpFields m off (opcode % 65536) (u32 senderIp) (u32 targetIp) senderMac := by
  simp only [arpPacket, holdsAt_append, List.length_append, List.length_cons, List.length_nil, putBe16_length,
    putLe32_length, senderMac.six, targetMac.six] at h
  obtain ⟨⟨⟨⟨⟨⟨⟨-, -⟩, -⟩, hop⟩, hmac⟩, hsender⟩, -⟩, htarget⟩ := h
  refine ⟨be16_of_holds hop, ?_, le32_of_holds hsender, le32_of_holds htarget⟩
  have hslice := slice_of_holds hmac
  rw [senderMac.six] at hslice
  cases senderMac
  exact Mac.mk.injEq .. ▸ hslice

theorem arpRx_host {m : Nat → UInt8} {off len : Nat} (hlong : ¬len < 28) :
    (h.arpRx m off len).1 = { h with arp := arpAddEntry h.arp (le32 m (off + 14)) (macAt m (off + 8)).bytes } := by
  unfold Host.arpRx
  rw [if_neg hlong]
  dsimp only
  split
  · rfl
  · rfl

theorem Honest.arpRx (hh : Honest K J i h) {m : Nat → UInt8} {off len opcode target : Nat}
    (hf : ArpFields m off opcode (K.dev j).ip target (K.dev j).mac) : Fair K J i (h.arpRx m off len) := by
  have hcache := hh.cache.add j
  have hunique : UniqueIps (arpAddEntry h.arp (K.dev j).ip (K.dev j).mac.bytes) := arpAddEntry_unique hh.unique _ _
  unfold Host.arpRx
  split
  · exact ⟨hh, nofun⟩
  dsimp only
  rw [hf.senderMac, hf.senderIp]
  split
  · refine ⟨⟨hh.dev, hcache, hunique, hh.calls, hh.behind, hh.inputs⟩, frameNotes_genuine fun bytes hbytes => .inl ?_⟩
    rw [hh.dev, ethernetSend_arp] at hbytes
    exact ⟨_, _, _, _, (Option.some.inj hbytes).symm⟩
  · exact ⟨⟨hh.dev, hcache, hunique, hh.calls, hh.behind, hh.inputs⟩, nofun⟩

/-- The message of a call comes in. -/
theorem Honest.messageRx (hh : Honest K J i h) {m : Nat → UInt8} {off : Nat} {reply : Bool}
    (hcall : (j, Note.call c reply) ∈ J) (hsize : c.payload.length ≤ 1480) (hm : HoldsAt m off c.payload)
    (hout : ∀ x ∈ (h.messageRx m (K.dev j).ip (c.proto % 256) off c.payload.length).2, (i, x) ∈ J) :
    Fair K J i (h.messageRx m (K.dev j).ip (c.proto % 256) off c.payload.length) := by
  have hinputs : ∀ x ∈ (transport m (K.dev j).ip (c.proto % 256) off c.payload.length).toList, Sent K J x := by
    intro x hx
    refine ⟨j, c, reply, hcall, ?_⟩
    rw [← transport_message hm]
    exact Option.mem_toList.mp hx
  unfold Host.messageRx at hout ⊢
  dsimp only at hout ⊢
  split
  · rename_i hecho
    rw [if_pos hecho] at hout
    obtain ⟨hicmp, hlong, htype⟩ := hecho
    have hrequest : slice m off (icmpLen m off c.payload.length) = c.payload := by
      rw [icmpLen, if_neg fun hbig => absurd hbig.2 (by omega)]
      exact slice_of_holds hm
    have hhead : c.payload.head? = some 8 := by
      have hcell := hm 0 (by omega)
      rw [List.head?_eq_getElem?, hcell]
      exact congrArg some (UInt8.toNat_inj.mp htype)
    rw [hrequest] at hout ⊢
    obtain ⟨hhost, hnotes⟩ := hh.ipv4Send (hout _ List.mem_cons_self) hinputs fun x hx =>
      hout x (List.mem_cons_of_mem _ hx)
    refine ⟨hhost, fun x hx => ?_⟩
    rcases List.mem_cons.mp hx with rfl | hx
    · exact fun _ => ⟨j, c, reply, hcall, hicmp, hlong, hhead, rfl⟩
    · exact hnotes x hx
  · exact ⟨hh.handUp hinputs, fun x hx => absurd hx List.not_mem_nil⟩

/-- What `ipv4_rx` does with a packet that was sent. -/
theorem ipv4Rx_message (h : Host) {dev : NetConfig} {m : Nat → UInt8} {off len ipId dstIp proto sum : Nat}
    {payload : List UInt8} (hpayload : payload.length ≤ 1480) (hlen : 20 + payload.length ≤ len)
    (hm : HoldsAt m off (ipHeader dev ipId dstIp proto payload.length sum ++ payload)) :
    h.ipv4Rx m off len = h.messageRx m (u32 dev.ip) (proto % 256) (off + 20) payload.length := by
  obtain ⟨hheader, -⟩ := holdsAt_append.mp hm
  have hf := ipHeader_fields hheader
  have htaken : ¬(ipVersion m off ≠ 4 ∨ ipIhl m off < 20 ∨ len < ipIhl m off) := by
    rw [hf.version, hf.ihl]
    omega
  have htotal : (if (20 + payload.length) % 65536 > len then len else (20 + payload.length) % 65536) =
      20 + payload.length := by
    split <;> omega
  have hrest : sub16 (20 + payload.length) 20 = payload.length := by
    unfold sub16
    omega
  unfold Host.ipv4Rx
  rw [if_neg (by omega)]
  dsimp only
  rw [if_neg htaken, hf.ihl, hf.proto, hf.srcIp, hf.total, htotal, hrest]

/-- A frame that was sent comes in. -/
theorem Honest.ethernetRx (hh : Honest K J i h) {m : Nat → UInt8} {frame : List UInt8} {len : Nat}
    (hf : Genuine K J j (.frame frame)) (hm : HoldsAt m 0 frame) (hlen : frame.length ≤ len)
    (hout : ∀ x ∈ (h.ethernetRx m len).2, (i, x) ∈ J) : Fair K J i (h.ethernetRx m len) := by
  rcases hf with ⟨dstMac, opcode, targetMac, targetIp, rfl⟩ | ⟨c, reply, mac, ipId, hcall, -, hframe⟩
  · obtain ⟨htype, hpacket⟩ := ethernet_fields hm
    simp only [arpFrame, List.length_append, dstMac.six, (K.dev j).mac.six, putBe16_length] at hlen
    have hfields := arpPacket_fields hpacket
    have hip : u32 (K.dev j).ip = (K.dev j).ip := Nat.mod_eq_of_lt (K.ip_lt j)
    rw [hip] at hfields
    unfold Host.ethernetRx
    rw [if_neg (by omega), htype]
    dsimp only
    rw [if_pos (by decide)]
    exact hh.arpRx hfields
  · obtain ⟨hsize, nextMac, -, hbytes⟩ := ipv4Send_some hframe
    rw [hbytes] at hm hlen
    obtain ⟨htype, hpacket⟩ := ethernet_fields hm
    simp only [List.length_append, nextMac.six, (K.dev j).mac.six, putBe16_length, ipHeader_length] at hlen
    have hip : u32 (K.dev j).ip = (K.dev j).ip := Nat.mod_eq_of_lt (K.ip_lt j)
    have hrun : h.ethernetRx m len = h.messageRx m (K.dev j).ip (c.proto % 256) 34 c.payload.length := by
      unfold Host.ethernetRx
      rw [if_neg (by omega), htype]
      dsimp only
      rw [if_neg (by decide), if_pos (by decide), ipv4Rx_message h hsize (by omega) hpacket, hip]
    rw [hrun] at hout ⊢
    exact hh.messageRx hcall hsize (holdsAt_append.mp hpacket).2 hout

/-- The record grows from `J` to `J'` by what the machine sends. -/
theorem Honest.run (hh : Honest K J i h) {e : LanEvent} (hJ : ∀ x ∈ J, Genuine K J x.1 x.2) (he : Arrived J e)
    (hgrows : J ⊆ J') (hout : ∀ x ∈ (e.run h).2, (i, x) ∈ J') : Fair K J' i (e.run h) := by
  have hh' := hh.mono hgrows
  cases e with
  | send c =>
      have hcall : (i, Note.call c false) ∈ J' := hout (.call c false) List.mem_cons_self
      have hnone : ∀ x ∈ ([] : List Input), Sent K J' x := nofun
      obtain ⟨hhost, hnotes⟩ := hh'.ipv4Send hcall hnone fun x hx => hout x (List.mem_cons_of_mem _ hx)
      refine ⟨hhost, fun x hx => ?_⟩
      rcases List.mem_cons.mp hx with rfl | hx
      · exact nofun
      · exact hnotes x hx
  | receive m len =>
      obtain ⟨j, frame, hframe, hm, hlen⟩ := he
      exact hh'.ethernetRx ((hJ _ hframe).mono hgrows) hm hlen hout
  | lookAgain => exact hh'.lookAgain

theorem lan_keeps : (lan K).Keeps (contract K) := by
  intro J i h e hJ hh he
  have hgrows : J ⊆ J ++ (e.run h).2.map fun x => (i, x) := List.subset_append_left _ _
  obtain ⟨hhost, hnotes⟩ := Honest.run hh hJ he hgrows fun x hx =>
    List.mem_append_right _ (List.mem_map.mpr ⟨x, hx, rfl⟩)
  exact ⟨hhost, hnotes⟩

/-- **Nothing on the wire is made up.**  Whatever the programs send, and however
the wire loses, repeats and reorders: every cache entry is the address of a
machine, every frame is one that its sender makes for a call and addresses to
its next hop, every echo reply answers a request, and what a socket is handed
was sent by the machine that has the address it is said to come from. -/
theorem lan_genuine [DecidableEq ι] {w : World ι Host Note} (h : (lan K).system.Reach w) :
    (∀ i, Honest K w.medium i (w.party i)) ∧ ∀ x ∈ w.medium, Genuine K w.medium x.1 x.2 := by
  have hinit : ∀ i s, (lan K).init i s → Honest K [] i s := by
    intro i s hs
    refine ⟨hs.dev, fun k hk => ?_, fun k l hk _ _ => ?_, ?_, ?_, ?_⟩
    · rw [hs.arp k] at hk
      cases hk
    · rw [hs.arp k] at hk
      cases hk
    · rw [hs.waits]
      exact nofun
    · rw [hs.waits]
      exact nofun
    · rw [hs.inputs]
      exact nofun
  obtain ⟨hparty, hmessage⟩ := Network.guarantee (C := contract K) hinit lan_keeps h
  exact ⟨hparty, hmessage⟩

end Steps

/-! ## The receive path of one machine -/

/-- The machine and the stack of `LiteBSD.Net.Frame` have the same cache and the
same address. -/
structure SameCard (h : Host) (st : Stack) : Prop where
  arp : h.arp = st.arp
  devIp : h.dev.ip = st.devIp

/-- The sockets have been handed the inputs, on the machine at once or as soon as
the reply is out. -/
structure SameInputs (h h' : Host) (st st' : Stack) : Prop where
  card : SameCard h' st'
  inputs : ∃ (xs : List Input) (n : Net), n.slot = st.net.slot ∧ st'.net = xs.foldl Input.apply n ∧
    (h'.inputs = h.inputs ++ xs ∨ ∃ c, h'.waits = ⟨c, 200, xs⟩ :: h.waits)

section Same

variable {h : Host} {st : Stack} {m : Nat → UInt8} {off len srcIp proto : Nat}

theorem SameInputs.nothing (hs : SameCard h st) : SameInputs h h st st :=
  ⟨hs, [], st.net, rfl, rfl, .inl (List.append_nil _).symm⟩

theorem icmpEcho_same (hs : SameCard h st) : SameCard h (icmpEcho st m srcIp off len).1 ∧
    (icmpEcho st m srcIp off len).1.net.slot = st.net.slot := by
  unfold icmpEcho
  split
  · refine ⟨⟨hs.arp, hs.devIp⟩, ?_⟩
    dsimp only
    split
    · split
      · rfl
      · exact Net.slot_transmit _ _
    · split
      · rfl
      · exact Net.slot_transmit _ _
  · exact ⟨hs, rfl⟩

theorem ipv4Send_inputs (h : Host) (c : IpSend) (behind : List Input) :
    (h.ipv4Send c behind).1.dev = h.dev ∧ (h.ipv4Send c behind).1.arp = h.arp ∧
      ((h.ipv4Send c behind).1.inputs = h.inputs ++ behind ∨
        ∃ c', (h.ipv4Send c behind).1.waits = ⟨c', 200, behind⟩ :: h.waits) := by
  unfold Host.ipv4Send
  split
  · exact ⟨rfl, rfl, .inl rfl⟩
  split
  · exact ⟨rfl, rfl, .inl rfl⟩
  · exact ⟨rfl, rfl, .inr ⟨c, rfl⟩⟩

/-- The message is handed on as there. -/
theorem messageRx_same (hs : SameCard h st) :
    SameInputs h (h.messageRx m srcIp proto off len).1 st (handed st m srcIp proto off len) := by
  have hnet : (handed st m srcIp proto off len).net =
      (transport m srcIp proto off len).toList.foldl Input.apply (answered st m srcIp proto off len).net := by
    unfold handed
    dsimp only
    cases transport m srcIp proto off len with
    | none => rfl
    | some x => rfl
  have hanswered : SameCard h (answered st m srcIp proto off len) ∧
      (answered st m srcIp proto off len).net.slot = st.net.slot := by
    unfold answered
    split
    · exact icmpEcho_same hs
    · exact ⟨hs, rfl⟩
  obtain ⟨hcard, hslot⟩ := hanswered
  unfold Host.messageRx
  dsimp only
  split
  · obtain ⟨hdev, harp, hinputs⟩ := ipv4Send_inputs h ⟨srcIp, ipprotoIcmp, echoReply (slice m off (icmpLen m off len))⟩
      (transport m srcIp proto off len).toList
    exact ⟨⟨harp.trans hcard.arp, hdev ▸ hcard.devIp⟩, _, _, hslot, hnet, hinputs⟩
  · exact ⟨⟨hcard.arp, hcard.devIp⟩, _, _, hslot, hnet, .inl rfl⟩

theorem ipv4Rx_same (hs : SameCard h st) : SameInputs h (h.ipv4Rx m off len).1 st (LiteBSD.ipv4Rx st m off len).1 := by
  by_cases hok : 20 ≤ len ∧ ¬(ipVersion m off ≠ 4 ∨ ipIhl m off < 20 ∨ len < ipIhl m off)
  · obtain ⟨hlong, htaken⟩ := hok
    have hheader : HeaderOk m off len := by
      rw [not_or, not_or, not_not] at htaken
      exact ⟨hlong, htaken.1, Nat.le_of_not_lt htaken.2.1, Nat.le_of_not_lt htaken.2.2⟩
    rw [ipv4Rx_handed hheader]
    unfold Host.ipv4Rx
    rw [if_neg (Nat.not_lt.mpr hlong)]
    dsimp only
    rw [if_neg htaken]
    exact messageRx_same hs
  · have hnothing : h.ipv4Rx m off len = (h, []) ∧ (LiteBSD.ipv4Rx st m off len).1 = st := by
      unfold Host.ipv4Rx LiteBSD.ipv4Rx
      by_cases hshort : len < 20
      · rw [if_pos hshort, if_pos hshort]
        exact ⟨rfl, rfl⟩
      · have hbad : ipVersion m off ≠ 4 ∨ ipIhl m off < 20 ∨ len < ipIhl m off := by
          by_contra hgood
          exact hok ⟨Nat.le_of_not_lt hshort, hgood⟩
        rw [if_neg hshort, if_neg hshort]
        extract_lets
        rw [if_pos hbad, if_pos hbad]
        exact ⟨rfl, rfl⟩
    rw [hnothing.1, hnothing.2]
    exact .nothing hs

theorem arpRx_same (hs : SameCard h st) : SameInputs h (h.arpRx m off len).1 st (LiteBSD.arpRx st m off len).1 := by
  by_cases hshort : len < 28
  · unfold Host.arpRx LiteBSD.arpRx
    rw [if_pos hshort, if_pos hshort]
    exact .nothing hs
  · have harp : arpAddEntry h.arp (le32 m (off + 14)) (slice m (off + 8) 6) =
        arpAddEntry st.arp (le32 m (off + 14)) (slice m (off + 8) 6) := by rw [hs.arp]
    have hsame : ∀ replies, SameInputs h { h with arp := arpAddEntry h.arp (le32 m (off + 14)) (slice m (off + 8) 6) } st
        { st with arp := arpAddEntry st.arp (le32 m (off + 14)) (slice m (off + 8) 6), replies := replies } := fun _ =>
      ⟨⟨harp, hs.devIp⟩, [], st.net, rfl, rfl, .inl (List.append_nil _).symm⟩
    rw [arpRx_host hshort]
    unfold LiteBSD.arpRx
    rw [if_neg hshort]
    dsimp only
    split
    · split
      · exact hsame _
      · exact hsame _
    · exact hsame _

/-- Any frame does the same to the cache and the sockets. -/
theorem ethernetRx_same (hs : SameCard h st) (m : Nat → UInt8) (len : Nat) :
    SameInputs h (h.ethernetRx m len).1 st (LiteBSD.ethernetRx st m len).1 := by
  unfold Host.ethernetRx LiteBSD.ethernetRx
  split
  · exact .nothing hs
  dsimp only
  split
  · exact arpRx_same hs
  split
  · exact ipv4Rx_same hs
  · exact .nothing hs

end Same

/-! ## A ping -/

/-- The frame comes in as it was sent. -/
def receiveFrame (frame : List UInt8) : LanEvent := .receive (textMem frame) frame.length

theorem receiveFrame_arrived {ι : Type} {J : List (ι × Note)} {j : ι} {frame : List UInt8}
    (hf : (j, Note.frame frame) ∈ J) : Arrived J (receiveFrame frame) :=
  ⟨j, frame, hf, textMem_holds frame, Nat.le_refl _⟩

/-- Another card on the wire. -/
def secondDevice : NetConfig :=
  { e1000Device with mac := ⟨[0x52, 0x54, 0, 0x12, 0x34, 0x57], rfl⟩, ip := 0x1002000A }

def twoMachines : Config (Fin 2) where
  dev i := if i = 0 then e1000Device else secondDevice
  ip_lt i := by
    split
    · exact show (0x0F02000A : Nat) < 4294967296 by decide
    · exact show (0x1002000A : Nat) < 4294967296 by decide

def wireUp : World (Fin 2) Host Note := ⟨fun i => ⟨twoMachines.dev i, fun _ => ⟨0, [], false⟩, 1000, [], []⟩, []⟩

/-- The frame with this number on the record comes to the machine. -/
def hears (w : World (Fin 2) Host Note) (i : Fin 2) (k : Nat) : World (Fin 2) Host Note :=
  match w.medium[k]? with
  | some (_, .frame frame) => (lan twoMachines).act w i (receiveFrame frame)
  | _ => w

theorem hears_reach {w : World (Fin 2) Host Note} (h : (lan twoMachines).system.Reach w) (i : Fin 2) (k : Nat) :
    (lan twoMachines).system.Reach (hears w i k) := by
  unfold hears
  split
  · rename_i j frame hk
    exact Network.reach_act h (receiveFrame_arrived (List.mem_of_getElem? hk))
  · exact h

theorem wireUp_reach : (lan twoMachines).system.Reach wireUp := .init ⟨fun _ => ⟨rfl, fun _ => rfl, rfl, rfl⟩, rfl⟩

/-- The first machine sends an echo request to the second, which it asks for its
hardware address. -/
def asking : World (Fin 2) Host Note :=
  (lan twoMachines).act wireUp 0 (.send ⟨0x1002000A, ipprotoIcmp, [8, 0, 0xEA, 0xD5, 0, 1, 0, 1, 0x61]⟩)

theorem asking_reach : (lan twoMachines).system.Reach asking := Network.reach_act wireUp_reach trivial

/-- The reply has come, and the loop has looked again. -/
def requested : World (Fin 2) Host Note := (lan twoMachines).act (hears (hears asking 1 1) 0 2) 0 .lookAgain

theorem requested_reach : (lan twoMachines).system.Reach requested := by
  have hlook : ∀ w : World (Fin 2) Host Note, (lan twoMachines).system.Reach w →
      (lan twoMachines).system.Reach ((lan twoMachines).act w 0 .lookAgain) := fun w hw => Network.reach_act hw trivial
  exact hlook _ (hears_reach (hears_reach asking_reach 1 1) 0 2)

def replied : World (Fin 2) Host Note := hears (hears requested 1 3) 0 5

theorem replied_reach : (lan twoMachines).system.Reach replied :=
  hears_reach (hears_reach requested_reach 1 3) 0 5

/-- The sockets get the reply, which the second machine has sent. -/
theorem ping_answered : (lan twoMachines).system.Reach replied ∧
    Sent twoMachines replied.medium (.icmp 0x1002000A [0, 0, 0, 0, 0, 1, 0, 1] [0x61]) := by
  refine ⟨replied_reach, ((lan_genuine replied_reach).1 0).inputs _ ?_⟩
  have hinputs : (replied.party 0).inputs = [.icmp 0x1002000A [0, 0, 0, 0, 0, 1, 0, 1] [0x61]] := by decide +kernel
  rw [hinputs]
  exact List.mem_singleton.mpr rfl

end Lan

end LiteBSD
