/-
# `LiteBSD.Net.Frame` — from a frame to the sockets

The receive path of `src/netstack.c`: `ethernet_rx` hands the frame to
`arp_rx` or `ipv4_rx`, and the latter hands its payload to `icmp_rx`,
`socket_udp_input` or `socket_tcp_input`.

The frame lies in memory, and nothing stops a function from reading on behind
it.  So a function here gets the memory from the first byte of the frame on,
the place `off` its buffer starts at and the length it was told, and gives
back, beside its result, every stretch of memory that it reads or hands on.
All of these lie in the frame exactly if the IP header does not claim a total
length that is SHORTER than itself (`frame_in_bounds_iff`): `payload_len` is
16 bits wide, and the difference wraps around.
-/
import LiteBSD.Net.Steps

namespace LiteBSD

open Lib

/-- A stretch of memory, counted from the start of the frame. -/
structure Stretch where
  off : Nat
  len : Nat
deriving DecidableEq, Repr

/-- Subtraction of `uint16_t` values, stored as such. -/
def sub16 (a b : Nat) : Nat := (a + 65536 - b) % 65536

section Fields

variable (m : Nat → UInt8)

def byteAt (off : Nat) : Nat := (m off).toNat

/-- A field in network order, through `net_ntohs`. -/
def be16 (off : Nat) : Nat := byteAt m off * 256 + byteAt m (off + 1)

/-- A field in network order, through `net_ntohl`. -/
def be32 (off : Nat) : Nat := be16 m off * 65536 + be16 m (off + 2)

/-- A field as the machine reads it; addresses are kept so. -/
def le32 (off : Nat) : Nat :=
  byteAt m off + byteAt m (off + 1) * 256 + byteAt m (off + 2) * 65536 +
    byteAt m (off + 3) * 16777216

def slice (off len : Nat) : List UInt8 := (List.range len).map fun k => m (off + k)

end Fields

/-! ## Address resolution -/

def arpTableSize : Nat := 32

structure ArpEntry where
  ip : Nat
  mac : List UInt8
  valid : Bool
deriving DecidableEq, Repr

/-- The statics of `netstack.c` and the device, with the sockets behind them.
`replies` are the answers to ARP requests: to which hardware address, and to
which address. -/
structure Stack where
  net : Net
  arp : Fin arpTableSize → ArpEntry
  devIp : Nat
  replies : List (List UInt8 × Nat)

def arpAddEntry (t : Fin arpTableSize → ArpEntry) (ip : Nat) (mac : List UInt8) :
    Fin arpTableSize → ArpEntry :=
  match (List.finRange arpTableSize).find? fun i => (t i).valid && (t i).ip == ip with
  | some i => Function.update t i { t i with mac := mac }
  | none =>
      match (List.finRange arpTableSize).find? fun i => !(t i).valid with
      | some i => Function.update t i ⟨ip, mac, true⟩
      | none => t

def arpRx (st : Stack) (m : Nat → UInt8) (off len : Nat) : Stack × List Stretch :=
  if len < 28 then (st, [])
  else
    let senderMac := slice m (off + 8) 6
    let senderIp := le32 m (off + 14)
    let st := { st with arp := arpAddEntry st.arp senderIp senderMac }
    let reads := [⟨off + 6, 2⟩, ⟨off + 8, 6⟩, ⟨off + 14, 4⟩]
    if be16 m (off + 6) = 1 then
      (if le32 m (off + 24) = st.devIp then
        { st with replies := st.replies ++ [(senderMac, senderIp)] } else st,
        reads ++ [⟨off + 24, 4⟩])
    else (st, reads)

/-! ## ICMP -/

/-- The sum of `net_checksum`, word by word as the machine reads them. -/
def sumWords : List UInt8 → Nat
  | [] => 0
  | [a] => a.toNat
  | a :: b :: rest => a.toNat + b.toNat * 256 + sumWords rest

/-- The second loop of `net_checksum`. -/
def foldSum (sum : Nat) : Nat :=
  if sum / 65536 = 0 then sum else foldSum (sum % 65536 + sum / 65536)
termination_by sum
decreasing_by omega

def netChecksum (buf : List UInt8) : Nat := 65535 - foldSum (sumWords buf)

/-- The echo reply: type, code and checksum are new, the rest is copied. -/
def echoReply (request : List UInt8) : List UInt8 :=
  let blank := [0, 0, 0, 0] ++ request.drop 4
  let sum := netChecksum blank
  [0, 0, UInt8.ofNat sum, UInt8.ofNat (sum / 256)] ++ request.drop 4

def icmpMatch (s : Socket) : Bool :=
  s.refCount ≠ 0 ∧ s.type = sockRaw ∧ s.protocol = ipprotoIcmp

/-- The bytes `socket_icmp_input` copies of its payload.  `len` is at most
65527 where it is called, so that `total` does not wrap. -/
def icmpCopied (len : Nat) : Nat :=
  let total := (8 + len) % 65536
  (if total > 1500 then 1500 else total) - 8

/-- `socket_icmp_input`, with the header as it is copied and the payload. -/
def socketIcmpInput (n : Net) (srcIp : Nat) (header payload : List UInt8) : Net :=
  { n with
    slot := fun i =>
      let s := n.slot i
      if icmpMatch s then
        { s with
          dgram := s.dgram.store maxDgramQueue
            ⟨srcIp, 0, header ++ payload.take (icmpCopied payload.length)⟩ }
      else s }

/-- Does `socket_icmp_input` copy the payload to anyone? -/
def icmpWanted (n : Net) : Bool :=
  (List.finRange maxSockets).any fun i =>
    icmpMatch (n.slot i) && decide ((n.slot i).dgram.count < maxDgramQueue)

/-- The first part of `icmp_rx`: an echo request is answered, and shortened
to the size of the buffer. -/
def icmpEcho (st : Stack) (m : Nat → UInt8) (srcIp off len : Nat) : Stack × Nat × List Stretch :=
  if byteAt m off = 8 then
    let len := if len > 1500 then 1500 else len
    -- `ipv4_send` refuses more than 1480 bytes
    let net := if len > 1480 then st.net
      else (st.net.transmit (.raw srcIp ipprotoIcmp (echoReply (slice m off len)))).1
    ({ st with net := net }, len, [⟨off, len⟩])
  else (st, len, [])

def icmpRx (st : Stack) (m : Nat → UInt8) (srcIp off len : Nat) : Stack × List Stretch :=
  if len < 8 then (st, [])
  else
    let (st, len, echoed) := icmpEcho st m srcIp off len
    let header := slice m off 2 ++ [0, 0] ++ slice m (off + 4) 4
    let copied := if icmpWanted st.net then [⟨off + 8, icmpCopied (len - 8)⟩] else []
    ({ st with net := socketIcmpInput st.net srcIp header (slice m (off + 8) (len - 8)) },
      ⟨off, 1⟩ :: echoed ++ [⟨off, 2⟩, ⟨off + 4, 4⟩, ⟨off + 8, len - 8⟩] ++ copied)

/-! ## UDP and TCP -/

/-- What `socket_udp_input` reads of the payload at `off`. -/
def udpReads (n : Net) (dstPort off len : Nat) : List Stretch :=
  match (List.finRange maxSockets).find? fun i => udpMatch (n.slot i) dstPort with
  | none => []
  | some i =>
      if (n.slot i).dgram.count < maxDgramQueue then [⟨off, if len > 1500 then 1500 else len⟩]
      else []

def udpRx (st : Stack) (m : Nat → UInt8) (srcIp off len : Nat) : Stack × List Stretch :=
  if len < 8 then (st, [])
  else
    let udpLen := be16 m (off + 4)
    let udpLen := if udpLen > len then len else udpLen
    let dataLen := if udpLen ≥ 8 then udpLen - 8 else 0
    let dstPort := be16 m (off + 2)
    ({ st with
        net := socketUdpInput st.net srcIp (be16 m off) dstPort (slice m (off + 8) dataLen) },
      [⟨off + 4, 2⟩, ⟨off, 4⟩, ⟨off + 8, dataLen⟩] ++ udpReads st.net dstPort (off + 8) dataLen)

/-- What `socket_tcp_input` reads of the header at `hdr` and the payload at
`off`. -/
def tcpReads (n : Net) (seg : Segment) (hdr off : Nat) : List Stretch :=
  match tcpSlot n seg with
  | none => []
  | some i =>
      let s := n.slot i
      ⟨hdr + 13, 1⟩ ::
        (if s.connects seg then [⟨hdr + 4, 8⟩, ⟨hdr + 14, 2⟩] else []) ++
        (if s.takes seg then
          [⟨off, min seg.payload.length (socketRxBufSize - s.rx.count)⟩] else [])

/-- The segment at `off`, with a header of `hdrLen` bytes. -/
def segmentAt (m : Nat → UInt8) (srcIp off hdrLen dataLen : Nat) : Segment :=
  { srcIp := srcIp, srcPort := be16 m off, dstPort := be16 m (off + 2), seq := be32 m (off + 4)
    ack := be32 m (off + 8), flags := byteAt m (off + 13), window := be16 m (off + 14)
    payload := slice m (off + hdrLen) dataLen }

/-- `tcp_hdr_len`, from the upper half of the byte at 12. -/
def tcpHdrLen (m : Nat → UInt8) (off : Nat) : Nat := byteAt m (off + 12) / 16 * 4

def tcpRx (st : Stack) (m : Nat → UInt8) (srcIp off len : Nat) : Stack × List Stretch :=
  if len < 20 then (st, [])
  else
    let hdrLen := tcpHdrLen m off
    if hdrLen ≥ 20 ∧ len ≥ hdrLen then
      let seg := segmentAt m srcIp off hdrLen (len - hdrLen)
      ({ st with net := socketTcpInput st.net seg },
        [⟨off + 12, 1⟩, ⟨off, 4⟩, ⟨off + hdrLen, len - hdrLen⟩] ++
          tcpReads st.net seg off (off + hdrLen))
    else (st, [⟨off + 12, 1⟩])

/-! ## IPv4 and Ethernet -/

def ipVersion (m : Nat → UInt8) (off : Nat) : Nat := byteAt m off / 16

/-- `ihl`, from the lower half of the first byte. -/
def ipIhl (m : Nat → UInt8) (off : Nat) : Nat := byteAt m off % 16 * 4

def ipv4Rx (st : Stack) (m : Nat → UInt8) (off len : Nat) : Stack × List Stretch :=
  if len < 20 then (st, [])
  else
    let ihl := ipIhl m off
    if ipVersion m off ≠ 4 ∨ ihl < 20 ∨ len < ihl then (st, [⟨off, 1⟩])
    else
      let totalLen := be16 m (off + 2)
      let totalLen := if totalLen > len then len else totalLen
      let payloadLen := sub16 totalLen ihl
      let payload := off + ihl
      let srcIp := le32 m (off + 12)
      let proto := byteAt m (off + 9)
      let reads := [⟨off, 1⟩, ⟨off + 2, 2⟩, ⟨off + 9, 1⟩, ⟨off + 12, 8⟩]
      if proto = ipprotoIcmp then
        let (st, r) := icmpRx st m srcIp payload payloadLen
        (st, reads ++ ⟨payload, payloadLen⟩ :: r)
      else if proto = ipprotoUdp then
        let (st, r) := udpRx st m srcIp payload payloadLen
        (st, reads ++ r)
      else if proto = ipprotoTcp then
        let (st, r) := tcpRx st m srcIp payload payloadLen
        (st, reads ++ r)
      else (st, reads)

def ethertypeIpv4 : Nat := 0x0800
def ethertypeArp : Nat := 0x0806

def ethernetRx (st : Stack) (m : Nat → UInt8) (len : Nat) : Stack × List Stretch :=
  if len < 14 then (st, [])
  else
    let ethertype := be16 m 12
    if ethertype = ethertypeArp then
      let (st, r) := arpRx st m 14 (len - 14)
      (st, ⟨12, 2⟩ :: r)
    else if ethertype = ethertypeIpv4 then
      let (st, r) := ipv4Rx st m 14 (len - 14)
      (st, ⟨12, 2⟩ :: r)
    else (st, [⟨12, 2⟩])

/-! ## In bounds -/

/-- Every stretch lies in the first `len` bytes. -/
def Inside (len : Nat) (r : List Stretch) : Prop :=
  ∀ x ∈ r, x.off + x.len ≤ len

/-- An IPv4 header that is taken and claims a total length below its own. -/
def ShortTotal (m : Nat → UInt8) (off len : Nat) : Prop :=
  20 ≤ len ∧ ipVersion m off = 4 ∧ 20 ≤ ipIhl m off ∧ ipIhl m off ≤ len ∧
    be16 m (off + 2) < ipIhl m off

/-- The protocol looks at what is behind the `rest` bytes that are left at
`payload`. -/
def ReadsOn (m : Nat → UInt8) (proto payload rest : Nat) : Prop :=
  proto = ipprotoIcmp ∨
    proto = ipprotoUdp ∧ (rest < 8 ∨ rest < be16 m (payload + 4)) ∨
    proto = ipprotoTcp ∧ (rest < 13 ∨ 20 ≤ tcpHdrLen m payload)

theorem readsOn_udp (m : Nat → UInt8) (payload rest : Nat) :
    ReadsOn m ipprotoUdp payload rest ↔ rest < 8 ∨ rest < be16 m (payload + 4) := by
  simp [ReadsOn, ipprotoIcmp, ipprotoUdp, ipprotoTcp]

theorem readsOn_tcp (m : Nat → UInt8) (payload rest : Nat) :
    ReadsOn m ipprotoTcp payload rest ↔ rest < 13 ∨ 20 ≤ tcpHdrLen m payload := by
  simp [ReadsOn, ipprotoIcmp, ipprotoUdp, ipprotoTcp]

section Inside

variable {st : Stack} {m : Nat → UInt8} {srcIp off len total : Nat}

@[simp] theorem inside_nil : Inside total [] := nofun

@[simp] theorem inside_cons (x : Stretch) (r : List Stretch) :
    Inside total (x :: r) ↔ x.off + x.len ≤ total ∧ Inside total r := by
  simp [Inside]

@[simp] theorem inside_append (r r' : List Stretch) :
    Inside total (r ++ r') ↔ Inside total r ∧ Inside total r' := by
  simp [Inside, or_imp, forall_and]

theorem arpRx_inside (h : off + len ≤ total) : Inside total (arpRx st m off len).2 := by
  unfold arpRx
  split
  · exact inside_nil
  dsimp only
  split <;> simp <;> omega

theorem icmpCopied_le {n : Nat} (h : n ≤ 65527) : icmpCopied n ≤ n := by
  unfold icmpCopied
  dsimp only
  split <;> omega

/-- `icmp_rx` stays in the buffer it is given. -/
theorem icmpRx_inside (h : off + len ≤ total) (hlen : len < 65536) :
    Inside total (icmpRx st m srcIp off len).2 := by
  have hecho : (icmpEcho st m srcIp off len).2.1 ≤ len ∧
      Inside total (icmpEcho st m srcIp off len).2.2 := by
    unfold icmpEcho
    split
    · dsimp only
      split <;> simp <;> omega
    · exact ⟨Nat.le_refl _, inside_nil⟩
  unfold icmpRx
  split
  · exact inside_nil
  rename_i hshort
  generalize icmpEcho st m srcIp off len = echoed at hecho ⊢
  obtain ⟨st', len', r⟩ := echoed
  obtain ⟨hle, hin⟩ : len' ≤ len ∧ Inside total r := hecho
  have hcopied := icmpCopied_le (n := len' - 8) (by omega)
  dsimp only
  split <;> simp [hin] <;> omega

theorem udpReads_inside {n : Net} {dstPort : Nat} (h : off + len ≤ total) :
    Inside total (udpReads n dstPort off len) := by
  unfold udpReads
  split
  · exact inside_nil
  split
  · simp
    split <;> omega
  · exact inside_nil

/-- What UDP reads ends where the header says, but not before its own end. -/
theorem udpRx_inside_iff :
    Inside total (udpRx st m srcIp off len).2 ↔
      len < 8 ∨ off + max 8 (min (be16 m (off + 4)) len) ≤ total := by
  unfold udpRx
  split
  · rename_i hshort
    exact iff_of_true inside_nil (.inl hshort)
  rename_i hlong
  dsimp only
  generalize hd : (if (if be16 m (off + 4) > len then len else be16 m (off + 4)) ≥ 8 then
    (if be16 m (off + 4) > len then len else be16 m (off + 4)) - 8 else 0) = dataLen
  have hmax : max 8 (min (be16 m (off + 4)) len) = 8 + dataLen := by
    rw [← hd]
    split <;> split <;> omega
  rw [hmax]
  constructor
  · intro h
    simp at h
    omega
  · rintro (h | h)
    · exact absurd h hlong
    · have hreads : Inside total (udpReads st.net (be16 m (off + 2)) (off + 8) dataLen) :=
        udpReads_inside (by omega)
      simp [hreads]
      omega

theorem length_slice (m : Nat → UInt8) (off len : Nat) : (slice m off len).length = len := by
  simp [slice]

theorem tcpReads_inside {n : Net} {seg : Segment} {hdr : Nat} (hhdr : hdr + 20 ≤ total)
    (h : off + seg.payload.length ≤ total) : Inside total (tcpReads n seg hdr off) := by
  unfold tcpReads
  split
  · exact inside_nil
  dsimp only
  split <;> split <;> simp <;> omega

/-- TCP reads its header and, if it takes the header, all it was told. -/
theorem tcpRx_inside_iff :
    Inside total (tcpRx st m srcIp off len).2 ↔
      len < 20 ∨ if tcpHdrLen m off ≥ 20 ∧ len ≥ tcpHdrLen m off then off + len ≤ total
        else off + 13 ≤ total := by
  unfold tcpRx
  split
  · rename_i hshort
    exact iff_of_true inside_nil (.inl hshort)
  rename_i hlong
  dsimp only
  split
  · rename_i hhdr
    constructor
    · intro h
      simp at h
      omega
    · rintro (h | h)
      · exact absurd h hlong
      · have hreads : Inside total (tcpReads st.net
            (segmentAt m srcIp off (tcpHdrLen m off) (len - tcpHdrLen m off)) off
            (off + tcpHdrLen m off)) := by
          refine tcpReads_inside (by omega) ?_
          simp [segmentAt, length_slice]
          omega
        simp [hreads]
        omega
  · simp
    omega

/-- The length handed on: all that is left, or, for a total length below the
header's, far more than there is. -/
def HandedOn (len totalLen ihl payloadLen : Nat) : Prop :=
  (totalLen < ihl ∧ payloadLen = 65536 + totalLen - ihl) ∨
    (ihl ≤ totalLen ∧ payloadLen ≤ len - ihl)

theorem handedOn_sub16 (totalLen : Nat) {ihl : Nat} (hihl : ihl ≤ len) (hlen : len < 65536) :
    HandedOn len totalLen ihl (sub16 (if totalLen > len then len else totalLen) ihl) := by
  unfold HandedOn sub16
  split <;> omega

section Handed

variable {totalLen ihl payloadLen : Nat} (hhanded : HandedOn len totalLen ihl payloadLen)
  (hihl : 20 ≤ ihl ∧ ihl ≤ 60 ∧ ihl ≤ len) (hlen : len < 65536) (htotal : off + len = total)

include hhanded hihl hlen htotal

theorem icmp_handed_iff : Inside total
    (⟨off + ihl, payloadLen⟩ :: (icmpRx st m srcIp (off + ihl) payloadLen).2) ↔ ¬totalLen < ihl := by
  rw [inside_cons]
  rcases hhanded with ⟨hwrap, hpay⟩ | ⟨hno, hpay⟩
  · refine iff_of_false ?_ (not_not_intro hwrap)
    rintro ⟨hfits, -⟩
    dsimp only at hfits
    omega
  · have hfits : off + ihl + payloadLen ≤ total := by omega
    exact iff_of_true ⟨hfits, icmpRx_inside hfits (by omega)⟩ (Nat.not_lt.mpr hno)

theorem udp_handed_iff : Inside total (udpRx st m srcIp (off + ihl) payloadLen).2 ↔
    ¬(totalLen < ihl ∧ (len - ihl < 8 ∨ len - ihl < be16 m (off + ihl + 4))) := by
  rw [udpRx_inside_iff]
  rcases hhanded with ⟨hwrap, hpay⟩ | ⟨hno, hpay⟩
  · simp only [hwrap, true_and]
    omega
  · exact iff_of_true (by omega) fun h => absurd h.1 (Nat.not_lt.mpr hno)

theorem tcp_handed_iff : Inside total (tcpRx st m srcIp (off + ihl) payloadLen).2 ↔
    ¬(totalLen < ihl ∧ (len - ihl < 13 ∨ 20 ≤ tcpHdrLen m (off + ihl))) := by
  have hhdr : tcpHdrLen m (off + ihl) ≤ 60 := by
    have hbyte := UInt8.toNat_lt (m (off + ihl + 12))
    unfold tcpHdrLen byteAt
    omega
  rw [tcpRx_inside_iff]
  rcases hhanded with ⟨hwrap, hpay⟩ | ⟨hno, hpay⟩
  · simp only [hwrap, true_and]
    split <;> omega
  · exact iff_of_true (by split <;> omega) fun h => absurd h.1 (Nat.not_lt.mpr hno)

end Handed

/-- What the protocol reads comes behind what the header took. -/
theorem handed_snd (rx : Stack × List Stretch) (reads : List Stretch) :
    (match rx with | (st, r) => (st, reads ++ r)).2 = reads ++ rx.2 := rfl

theorem handed_snd_cons (rx : Stack × List Stretch) (reads : List Stretch) (x : Stretch) :
    (match rx with | (st, r) => (st, reads ++ x :: r)).2 = reads ++ x :: rx.2 := rfl

/-- `ipv4_rx` reads on behind its buffer for a total length below the
header's, if the protocol does. -/
theorem ipv4Rx_inside_iff (hlen : len < 65536) (htotal : off + len = total) :
    Inside total (ipv4Rx st m off len).2 ↔
      ¬(ShortTotal m off len ∧
        ReadsOn m (byteAt m (off + 9)) (off + ipIhl m off) (len - ipIhl m off)) := by
  unfold ipv4Rx
  split
  · rename_i hshort
    exact iff_of_true inside_nil fun h => absurd h.1.1 (Nat.not_le.mpr hshort)
  rename_i hlong
  extract_lets ihl totalLen cut payloadLen payload srcIp proto reads
  split
  · rename_i hbad
    refine iff_of_true ?_ ?_
    · simp
      omega
    · rintro ⟨⟨_, hversion, hmin, hfits, _⟩, _⟩
      rcases hbad with h | h | h
      · exact h hversion
      · exact absurd hmin (Nat.not_le.mpr h)
      · exact absurd hfits (Nat.not_le.mpr h)
  rename_i hgood
  have hihl : 20 ≤ ihl ∧ ihl ≤ 60 ∧ ihl ≤ len := by
    have hmax : ipIhl m off ≤ 60 := by
      unfold ipIhl
      omega
    omega
  have hhanded : HandedOn len totalLen ihl payloadLen := handedOn_sub16 totalLen hihl.2.2 hlen
  have hshort : ShortTotal m off len ↔ totalLen < ihl :=
    ⟨fun h => h.2.2.2.2, fun h => ⟨by omega, by omega, hihl.1, hihl.2.2, h⟩⟩
  have hreads : Inside total reads := by
    simp [reads]
    omega
  rw [hshort]
  by_cases hicmp : byteAt m (off + 9) = ipprotoIcmp
  · rw [if_pos hicmp, handed_snd_cons, inside_append, and_iff_right hreads,
      icmp_handed_iff hhanded hihl hlen htotal]
    exact not_congr (and_iff_left (.inl hicmp)).symm
  rw [if_neg hicmp]
  by_cases hudp : byteAt m (off + 9) = ipprotoUdp
  · rw [if_pos hudp, handed_snd, inside_append, udp_handed_iff hhanded hihl hlen htotal,
      and_iff_right hreads, hudp, readsOn_udp]
  rw [if_neg hudp]
  by_cases htcp : byteAt m (off + 9) = ipprotoTcp
  · rw [if_pos htcp, handed_snd, inside_append, tcp_handed_iff hhanded hihl hlen htotal,
      and_iff_right hreads, htcp, readsOn_tcp]
  · rw [if_neg htcp]
    refine iff_of_true hreads ?_
    rintro ⟨_, h | h | h⟩
    · exact hicmp h
    · exact hudp h.1
    · exact htcp h.1

end Inside

/-- Whatever a frame holds, every stretch that is read or handed on lies in
the frame, if and only if it is not an IPv4 frame with a total length below
its header's whose protocol looks behind the end. -/
theorem frame_in_bounds_iff (st : Stack) (m : Nat → UInt8) {len : Nat} (hlen : len < 65536) :
    Inside len (ethernetRx st m len).2 ↔
      ¬(14 ≤ len ∧ be16 m 12 = ethertypeIpv4 ∧ ShortTotal m 14 (len - 14) ∧
        ReadsOn m (byteAt m 23) (14 + ipIhl m 14) (len - 14 - ipIhl m 14)) := by
  unfold ethernetRx
  split
  · rename_i hshort
    exact iff_of_true inside_nil fun h => absurd h.1 (Nat.not_le.mpr hshort)
  rename_i hlong
  have hall : 14 + (len - 14) = len := by omega
  dsimp only
  by_cases harp : be16 m 12 = ethertypeArp
  · rw [if_pos harp]
    refine iff_of_true ?_ fun h => ?_
    · rw [inside_cons]
      exact ⟨by dsimp only; omega, arpRx_inside (by omega)⟩
    · rw [harp] at h
      exact absurd h.2.1 (by decide)
  rw [if_neg harp]
  by_cases hip : be16 m 12 = ethertypeIpv4
  · rw [if_pos hip, inside_cons, ipv4Rx_inside_iff (by omega) hall]
    have htype : 12 + 2 ≤ len := by omega
    simp only [htype, hip, true_and]
  · rw [if_neg hip]
    refine iff_of_true ?_ fun h => hip h.2.1
    simp
    omega

/-- An IPv4 frame of 34 bytes to nobody: a header of 20 bytes that claims a
total length of `total`, of protocol `proto`. -/
def headerFrame (total proto : UInt8) : Nat → UInt8 := fun k =>
  if k = 12 then 8 else if k = 14 then 0x45 else if k = 17 then total else if k = 23 then proto
  else 0

def quietStack : Stack :=
  { net := bootNet, arp := fun _ => ⟨0, [], false⟩, devIp := 1, replies := [] }

/-- A frame that is nothing but an IP header. -/
theorem header_frame_in_bounds : Inside 34 (ethernetRx quietStack (headerFrame 20 17) 34).2 :=
  (frame_in_bounds_iff quietStack (headerFrame 20 17) (by decide)).mpr
    fun h => absurd h.2.2.1.2.2.2.2 (by decide)

/-- With a total length of 19, 65535 bytes are handed to `icmp_rx`. -/
theorem short_total_overruns : ¬∀ st m len, len < 65536 → Inside len (ethernetRx st m len).2 := by
  intro hall
  have h := hall quietStack (headerFrame 19 1) 34 (by decide)
  have hslice := h ⟨34, 65535⟩ (by decide)
  exact absurd hslice (by decide)

end LiteBSD
