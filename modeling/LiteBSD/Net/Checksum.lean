/-
# `LiteBSD.Net.Checksum` — the packets that go out, byte by byte

`ipv4_send` and `ethernet_send` of `src/netstack.c` and `tcp_send_packet` of
`src/socket.c`, up to the frame that the driver is given.  Sums are taken of
words as the machine reads them, the lower byte first, and addresses are kept
as they lie in the packet; a receiver takes every pair of bytes the other way
round, and finds all of them right (`emitted_frames_verify`).
-/
import LiteBSD.Lib.OnesComplement
import LiteBSD.Exec
import LiteBSD.Net.Frame

namespace LiteBSD

open Lib

/-! ## Fields -/

/-- A value as `net_htons` turns it round. -/
def netHtons (x : Nat) : Nat := x % 256 * 256 + x / 256 % 256

/-- A 16-bit value, stored as it is. -/
def putLe16 (x : Nat) : List UInt8 := [UInt8.ofNat x, UInt8.ofNat (x / 256)]

/-- A 32-bit value, stored as it is. -/
def putLe32 (x : Nat) : List UInt8 := putLe16 x ++ putLe16 (x / 65536)

/-- A 16-bit value, stored through `net_htons`. -/
def putBe16 (x : Nat) : List UInt8 := [UInt8.ofNat (x / 256), UInt8.ofNat x]

/-- A 32-bit value, stored through `net_htonl`. -/
def putBe32 (x : Nat) : List UInt8 := putBe16 (x / 65536) ++ putBe16 x

@[simp] theorem putLe16_length (x : Nat) : (putLe16 x).length = 2 := rfl

@[simp] theorem putLe32_length (x : Nat) : (putLe32 x).length = 4 := rfl

@[simp] theorem putBe16_length (x : Nat) : (putBe16 x).length = 2 := rfl

@[simp] theorem putBe32_length (x : Nat) : (putBe32 x).length = 4 := rfl

/-! ## Sums -/

/-- `sum += w`, for an accumulator of 32 bits. -/
def addWord (sum w : Nat) : Nat := (sum + w) % 4294967296

/-- The loop over the words of a buffer, with its last byte. -/
def addWords (sum : Nat) : List UInt8 → Nat
  | [] => sum
  | [a] => addWord sum a.toNat
  | a :: b :: rest => addWords (addWord sum (a.toNat + b.toNat * 256)) rest

/-- What `tcp_checksum` has added up before it folds the carries. -/
def tcpSum (srcIp dstIp : Nat) (segment : List UInt8) : Nat :=
  let sum := addWords 0 segment
  let sum := addWord sum (srcIp % 65536)
  let sum := addWord sum (srcIp / 65536 % 65536)
  let sum := addWord sum (dstIp % 65536)
  let sum := addWord sum (dstIp / 65536 % 65536)
  let sum := addWord sum (netHtons ipprotoTcp)
  addWord sum (netHtons segment.length)

def tcpChecksum (srcIp dstIp : Nat) (segment : List UInt8) : Nat :=
  65535 - foldSum (tcpSum srcIp dstIp segment)

/-! ## Sending -/

/-- A hardware address. -/
structure Mac where
  bytes : List UInt8
  six : bytes.length = 6

/-- The addresses of a `net_device`. -/
structure NetConfig where
  mac : Mac
  ip : Nat
  netmask : Nat
  gateway : Nat

/-- The frame that `dev->send` is given. -/
def ethernetSend (dev : NetConfig) (dstMac : Mac) (ethertype : Nat) (payload : List UInt8) :
    Option (List UInt8) :=
  if payload.length > 1500 then none
  else some (dstMac.bytes ++ dev.mac.bytes ++ putBe16 ethertype ++ payload)

/-- The IP header with `sum` in its checksum field. -/
def ipHeader (dev : NetConfig) (ipId dstIp proto len sum : Nat) : List UInt8 :=
  [0x45, 0] ++ putBe16 (20 + len) ++ putBe16 ipId ++ [0, 0, 64, UInt8.ofNat proto] ++
    putLe16 sum ++ putLe32 dev.ip ++ putLe32 dstIp

/-- The address that is asked for a hardware address. -/
def nextHop (dev : NetConfig) (dstIp : Nat) : Nat :=
  if dstIp ≠ 0xFFFFFFFF ∧ dstIp &&& dev.netmask ≠ dev.ip &&& dev.netmask then dev.gateway
  else dstIp

/-- `ipv4_send`.  `resolve` is what `arp_resolve` comes back with, and `ipId`
is `s_ip_id` behind it. -/
def ipv4Send (dev : NetConfig) (resolve : Nat → Option Mac) (ipId dstIp proto : Nat)
    (payload : List UInt8) : Option (List UInt8) :=
  if payload.length > 1480 then none
  else
    match resolve (nextHop dev dstIp) with
    | none => none
    | some nextMac =>
        let blank := ipHeader dev ipId dstIp proto payload.length 0
        let header := ipHeader dev ipId dstIp proto payload.length (netChecksum blank)
        ethernetSend dev nextMac ethertypeIpv4 (header ++ payload)

/-- What `icmp_rx` sends for what came in. -/
def icmpReply (dev : NetConfig) (resolve : Nat → Option Mac) (ipId srcIp : Nat)
    (request : List UInt8) : Option (List UInt8) :=
  if request.length < 8 then none
  else if request.head? = some 8 then
    ipv4Send dev resolve ipId srcIp ipprotoIcmp (echoReply (request.take 1500))
  else none

/-- The segment with `sum` in its checksum field. -/
def tcpSegment (s : Socket) (flags sum : Nat) (payload : List UInt8) : List UInt8 :=
  putBe16 s.localPort ++ putBe16 s.remotePort ++ putBe32 s.localSeq ++
    putBe32 (if flags &&& tcpFlagAck ≠ 0 then s.remoteSeq else 0) ++
    [80, UInt8.ofNat flags] ++ putBe16 65535 ++ putLe16 sum ++ [0, 0] ++ payload

/-- The bytes behind `tcp_send_packet`.  Its buffer holds 1500 bytes, and
nothing keeps the payload from running over its end. -/
def tcpEmit (dev : NetConfig) (resolve : Nat → Option Mac) (ipId : Nat) (s : Socket) (flags : Nat)
    (payload : List UInt8) : Exec (Option (List UInt8)) :=
  if payload.length > 1480 then .undefined
  else
    let sum := tcpChecksum dev.ip s.remoteIp (tcpSegment s flags 0 payload)
    .ret (ipv4Send dev resolve ipId s.remoteIp ipprotoTcp (tcpSegment s flags sum payload))

/-! ## Receiving

How an independent receiver takes a frame apart and sums it up. -/

namespace Verify

/-- The IP header. -/
def header (frame : List UInt8) : List UInt8 := (frame.drop 14).take 20

/-- What the IP packet carries. -/
def message (frame : List UInt8) : List UInt8 := frame.drop 34

/-- The pseudo-header: both addresses, a zero, the protocol and the length of
the message. -/
def pseudoHeader (frame : List UInt8) : List UInt8 :=
  (header frame).drop 12 ++ [0] ++ ((header frame).drop 9).take 1 ++
    putBe16 (message frame).length

end Verify

/-! ## The accumulators -/

theorem sumWords_eq (buf : List UInt8) : sumWords buf = wordSum 1 256 buf := by
  induction buf using sumWords.induct with
  | case1 => rfl
  | case2 a => simp [sumWords, wordSum]
  | case3 a b rest ih => simp [sumWords, wordSum, ih, Nat.mul_comm]

theorem foldSum_eq (s : Nat) : foldSum s = endAround s := by
  induction s using foldSum.induct with
  | case1 s h =>
    rw [foldSum, if_pos h]
    exact (endAround_of_le (by omega)).symm
  | case2 s h ih =>
    rw [foldSum, if_neg h, ih]
    exact endAround_carry s

theorem addWord_eq {sum w : Nat} (h : sum + w < 4294967296) : addWord sum w = sum + w :=
  Nat.mod_eq_of_lt h

/-- As long as the whole sum fits, no step of the loop has wrapped around. -/
theorem addWords_eq {sum : Nat} (buf : List UInt8) (h : sum + sumWords buf < 4294967296) :
    addWords sum buf = sum + sumWords buf := by
  induction sum, buf using addWords.induct with
  | case1 sum => rfl
  | case2 sum a => exact addWord_eq h
  | case3 sum a b rest ih =>
    simp only [sumWords] at h ⊢
    have hword : addWord sum (a.toNat + b.toNat * 256) = sum + (a.toNat + b.toNat * 256) :=
      addWord_eq (by omega)
    rw [addWords, ih (by omega), hword, Nat.add_assoc]

/-- A buffer whose length fits 16 bits, summed with room for eight more
words. -/
theorem sumWords_lt {buf : List UInt8} (h : buf.length < 65536) :
    sumWords buf + 8 * 65535 < 4294967296 := by
  have hle := wordSum_le (k := 256) (p := 1) (q := 256) (by decide) (by decide) buf
  rw [sumWords_eq]
  omega

/-- The pseudo-header that `tcp_checksum` adds word by word. -/
def pseudoHeader (srcIp dstIp len : Nat) : List UInt8 :=
  putLe32 srcIp ++ putLe32 dstIp ++ [0, UInt8.ofNat ipprotoTcp] ++ putBe16 len

theorem pseudoHeader_length (srcIp dstIp len : Nat) :
    (pseudoHeader srcIp dstIp len).length = 12 := rfl

@[simp] theorem wordSum_putLe16 (x : Nat) : wordSum 1 256 (putLe16 x) = x % 65536 := by
  simp only [putLe16, wordSum, UInt8.toNat_ofNat']
  omega

@[simp] theorem wordSum_putLe32 (x : Nat) :
    wordSum 1 256 (putLe32 x) = x % 65536 + x / 65536 % 65536 := by
  rw [putLe32, wordSum_append _ (by simp), wordSum_putLe16, wordSum_putLe16]

@[simp] theorem wordSum_putBe16 (x : Nat) : wordSum 1 256 (putBe16 x) = netHtons x := by
  simp only [putBe16, wordSum, netHtons, UInt8.toNat_ofNat']
  omega

theorem sumWords_pseudoHeader (srcIp dstIp len : Nat) :
    sumWords (pseudoHeader srcIp dstIp len) =
      srcIp % 65536 + srcIp / 65536 % 65536 + (dstIp % 65536 + dstIp / 65536 % 65536) +
        netHtons ipprotoTcp + netHtons len := by
  rw [sumWords_eq, pseudoHeader, wordSum_append _ (by simp), wordSum_append _ (by simp),
    wordSum_append _ (by simp), wordSum_putLe32, wordSum_putLe32, wordSum_putBe16]
  rfl

theorem netHtons_lt (x : Nat) : netHtons x < 65536 := by
  unfold netHtons
  omega

/-- `tcp_checksum` sums up the segment and the pseudo-header. -/
theorem tcpSum_eq (srcIp dstIp : Nat) {segment : List UInt8} (h : segment.length < 65536) :
    tcpSum srcIp dstIp segment =
      sumWords segment + sumWords (pseudoHeader srcIp dstIp segment.length) := by
  have hroom := sumWords_lt h
  have hlen := netHtons_lt segment.length
  have hproto := netHtons_lt ipprotoTcp
  have hdata : addWords 0 segment = sumWords segment := by
    rw [addWords_eq segment (by omega), Nat.zero_add]
  rw [sumWords_pseudoHeader]
  unfold tcpSum addWord
  dsimp only
  rw [hdata]
  omega

/-! ## Completed texts -/

theorem netChecksum_eq (buf : List UInt8) :
    netChecksum buf = 65535 - endAround (wordSum 1 256 buf) := by
  rw [netChecksum, foldSum_eq, sumWords_eq]

theorem netChecksum_le (buf : List UInt8) : netChecksum buf ≤ 65535 := Nat.sub_le _ _

/-- A checksum in the place of a zero adds itself to the sum. -/
theorem wordSum_put {sum : Nat} (before behind : List UInt8) (heven : before.length % 2 = 0)
    (hsum : sum ≤ 65535) :
    wordSum 1 256 (before ++ putLe16 sum ++ behind) =
      wordSum 1 256 (before ++ putLe16 0 ++ behind) + sum := by
  have hsplit : ∀ x, wordSum 1 256 (before ++ putLe16 x ++ behind) =
      wordSum 1 256 before + x % 65536 + wordSum 1 256 behind := by
    intro x
    have hboth : (before ++ putLe16 x).length % 2 = 0 := by
      rw [List.length_append]
      exact (Nat.add_mod_right _ 2).trans heven
    rw [wordSum_append _ hboth, wordSum_append _ heven, wordSum_putLe16]
  rw [hsplit, hsplit]
  omega

theorem ipHeader_wordSum (dev : NetConfig) (ipId dstIp proto len : Nat) {sum : Nat}
    (hsum : sum ≤ 65535) :
    wordSum 1 256 (ipHeader dev ipId dstIp proto len sum) =
      wordSum 1 256 (ipHeader dev ipId dstIp proto len 0) + sum := by
  have hform : ∀ x, ipHeader dev ipId dstIp proto len x =
      [0x45, 0] ++ putBe16 (20 + len) ++ putBe16 ipId ++ [0, 0, 64, UInt8.ofNat proto] ++
        putLe16 x ++ (putLe32 dev.ip ++ putLe32 dstIp) := fun _ => List.append_assoc _ _ _
  rw [hform, hform]
  exact wordSum_put _ _ (by simp) hsum

theorem tcpSegment_wordSum (s : Socket) (flags : Nat) (payload : List UInt8) {sum : Nat}
    (hsum : sum ≤ 65535) :
    wordSum 1 256 (tcpSegment s flags sum payload) =
      wordSum 1 256 (tcpSegment s flags 0 payload) + sum := by
  have hform : ∀ x, tcpSegment s flags x payload =
      putBe16 s.localPort ++ putBe16 s.remotePort ++ putBe32 s.localSeq ++
        putBe32 (if flags &&& tcpFlagAck ≠ 0 then s.remoteSeq else 0) ++
        [80, UInt8.ofNat flags] ++ putBe16 65535 ++ putLe16 x ++ ([0, 0] ++ payload) :=
    fun _ => List.append_assoc _ _ _
  rw [hform, hform]
  exact wordSum_put _ _ (by simp) hsum

theorem tcpSegment_length (s : Socket) (flags sum : Nat) (payload : List UInt8) :
    (tcpSegment s flags sum payload).length = 20 + payload.length := by
  simp [tcpSegment, putBe16, putBe32, putLe16]
  omega

theorem ipHeader_verifies (dev : NetConfig) (ipId dstIp proto len : Nat) :
    onesSum 0 (ipHeader dev ipId dstIp proto len
      (netChecksum (ipHeader dev ipId dstIp proto len 0))) = 65535 := by
  apply onesSum_completed
  rw [ipHeader_wordSum dev ipId dstIp proto len (netChecksum_le _), netChecksum_eq]

theorem echoReply_verifies (request : List UInt8) : onesSum 0 (echoReply request) = 65535 := by
  apply onesSum_completed (s := wordSum 1 256 ([0, 0, 0, 0] ++ request.drop 4))
  rw [← netChecksum_eq]
  exact wordSum_put [0, 0] (request.drop 4) rfl (netChecksum_le _)

theorem tcpSegment_verifies (srcIp dstIp : Nat) (s : Socket) (flags : Nat) {payload : List UInt8}
    (h : payload.length ≤ 1480) :
    onesSum 0 (pseudoHeader srcIp dstIp (20 + payload.length) ++
      tcpSegment s flags (tcpChecksum srcIp dstIp (tcpSegment s flags 0 payload)) payload) =
        65535 := by
  have hlen := tcpSegment_length s flags 0 payload
  have hsum : tcpSum srcIp dstIp (tcpSegment s flags 0 payload) =
      wordSum 1 256 (pseudoHeader srcIp dstIp (20 + payload.length)) +
        wordSum 1 256 (tcpSegment s flags 0 payload) := by
    rw [tcpSum_eq srcIp dstIp (by omega), sumWords_eq, sumWords_eq, hlen, Nat.add_comm]
  have heven : (pseudoHeader srcIp dstIp (20 + payload.length)).length % 2 = 0 := by
    rw [pseudoHeader_length]
  apply onesSum_completed (s := tcpSum srcIp dstIp (tcpSegment s flags 0 payload))
  have hle : tcpChecksum srcIp dstIp (tcpSegment s flags 0 payload) ≤ 65535 := Nat.sub_le _ _
  rw [wordSum_append _ heven, tcpSegment_wordSum s flags payload hle, tcpChecksum, foldSum_eq, hsum,
    Nat.add_assoc]

/-! ## The frames -/

section Frames

variable {dev : NetConfig} {resolve : Nat → Option Mac} {ipId : Nat} {frame : List UInt8}

theorem ipHeader_length (dev : NetConfig) (ipId dstIp proto len sum : Nat) :
    (ipHeader dev ipId dstIp proto len sum).length = 20 := rfl

/-- The Ethernet header takes 14 bytes. -/
theorem ethernetSend_drop {dstMac : Mac} {ethertype : Nat} {payload : List UInt8}
    (h : ethernetSend dev dstMac ethertype payload = some frame) : frame.drop 14 = payload := by
  unfold ethernetSend at h
  split at h
  · exact absurd h (Option.some_ne_none _).symm
  · rw [← Option.some.inj h]
    apply List.drop_left'
    rw [List.length_append, List.length_append, dstMac.six, dev.mac.six, putBe16_length]

/-- What a receiver finds in a frame of `ipv4_send`. -/
theorem ipv4Send_frame {dstIp proto : Nat} {payload : List UInt8}
    (h : ipv4Send dev resolve ipId dstIp proto payload = some frame) :
    Verify.header frame = ipHeader dev ipId dstIp proto payload.length
        (netChecksum (ipHeader dev ipId dstIp proto payload.length 0)) ∧
      Verify.message frame = payload := by
  unfold ipv4Send at h
  split at h
  · exact absurd h (Option.some_ne_none _).symm
  split at h
  · exact absurd h (Option.some_ne_none _).symm
  dsimp only at h
  have hdrop := ethernetSend_drop h
  constructor
  · rw [Verify.header, hdrop]
    exact List.take_left' (ipHeader_length _ _ _ _ _ _)
  · rw [Verify.message, show 34 = 14 + 20 from rfl, ← List.drop_drop, hdrop]
    exact List.drop_left' (ipHeader_length _ _ _ _ _ _)

/-- The receiver's pseudo-header is made of the addresses the sender used. -/
theorem pseudoHeader_frame {dstIp : Nat} {payload : List UInt8}
    (h : ipv4Send dev resolve ipId dstIp ipprotoTcp payload = some frame) :
    Verify.pseudoHeader frame = pseudoHeader dev.ip dstIp payload.length := by
  obtain ⟨hheader, hmessage⟩ := ipv4Send_frame h
  rw [Verify.pseudoHeader, hheader, hmessage]
  simp [ipHeader, pseudoHeader, putBe16, putLe16, putLe32]

end Frames

/-- **Whatever goes out verifies.**  A receiver who adds up the big-endian
words of what has come in, with end-around carry, gets 65535 for the IP header
of every packet, for the message of every echo reply, and for the
pseudo-header and the segment of every TCP packet, of an odd or of an even
length.  And the accumulators of the sender never wrap around: the loops,
which add modulo 2^32, come to the sums themselves. -/
theorem emitted_frames_verify (dev : NetConfig) (resolve : Nat → Option Mac) (ipId : Nat) :
    (∀ dstIp proto payload frame, ipv4Send dev resolve ipId dstIp proto payload = some frame →
      onesSum 0 (Verify.header frame) = 0xFFFF ∧ Verify.message frame = payload) ∧
    (∀ srcIp request frame, icmpReply dev resolve ipId srcIp request = some frame →
      onesSum 0 (Verify.header frame) = 0xFFFF ∧ onesSum 0 (Verify.message frame) = 0xFFFF) ∧
    (∀ s flags payload frame, tcpEmit dev resolve ipId s flags payload = .ret (some frame) →
      onesSum 0 (Verify.header frame) = 0xFFFF ∧
        onesSum 0 (Verify.pseudoHeader frame ++ Verify.message frame) = 0xFFFF) ∧
    (∀ buf : List UInt8, buf.length < 65536 →
      addWords 0 buf = sumWords buf ∧ ∀ srcIp dstIp, tcpSum srcIp dstIp buf =
        sumWords buf + sumWords (pseudoHeader srcIp dstIp buf.length)) := by
  have hip : ∀ dstIp proto payload frame,
      ipv4Send dev resolve ipId dstIp proto payload = some frame →
        onesSum 0 (Verify.header frame) = 0xFFFF ∧ Verify.message frame = payload := by
    intro dstIp proto payload frame h
    obtain ⟨hheader, hmessage⟩ := ipv4Send_frame h
    rw [hheader]
    exact ⟨ipHeader_verifies _ _ _ _ _, hmessage⟩
  refine ⟨hip, ?_, ?_, ?_⟩
  · intro srcIp request frame h
    unfold icmpReply at h
    split at h
    · exact absurd h (Option.some_ne_none _).symm
    split at h
    · obtain ⟨hheader, hmessage⟩ := hip _ _ _ _ h
      rw [hmessage]
      exact ⟨hheader, echoReply_verifies _⟩
    · exact absurd h (Option.some_ne_none _).symm
  · intro s flags payload frame h
    unfold tcpEmit at h
    split at h
    · cases h
    rename_i hfits
    have hsent := Exec.ret.inj h
    obtain ⟨hheader, hmessage⟩ := hip _ _ _ _ hsent
    rw [pseudoHeader_frame hsent, hmessage, tcpSegment_length]
    exact ⟨hheader, tcpSegment_verifies _ _ _ _ (Nat.le_of_not_lt hfits)⟩
  · intro buf hlen
    have hroom := sumWords_lt hlen
    constructor
    · rw [addWords_eq buf (by omega), Nat.zero_add]
    · intro srcIp dstIp
      exact tcpSum_eq srcIp dstIp hlen

/-- The card of `e1000.c` with the addresses it comes with. -/
def e1000Device : NetConfig where
  mac := ⟨[0x52, 0x54, 0, 0x12, 0x34, 0x56], rfl⟩
  ip := 0x0F02000A
  netmask := 0x00FFFFFF
  gateway := 0x0202000A

/-- A socket on its way to a web server. -/
def webSocket : Socket :=
  { idleSocket with remoteIp := 0x08080808, remotePort := 80, localPort := 49152 }

theorem reply_and_segment_verify :
    ∃ reply segment,
      icmpReply e1000Device (fun _ => some e1000Device.mac) 1000 0x08080808
        [8, 0, 0xEA, 0xD5, 0, 1, 0, 1, 0x61] = some reply ∧
      tcpEmit e1000Device (fun _ => some e1000Device.mac) 1001 webSocket tcpFlagSyn [] =
        .ret (some segment) ∧
      onesSum 0 (Verify.message reply) = 0xFFFF ∧
      onesSum 0 (Verify.pseudoHeader segment ++ Verify.message segment) = 0xFFFF := by
  have hall := emitted_frames_verify e1000Device (fun _ => some e1000Device.mac)
  exact ⟨_, _, rfl, rfl, ((hall 1000).2.1 0x08080808 [8, 0, 0xEA, 0xD5, 0, 1, 0, 1, 0x61] _ rfl).2,
    ((hall 1001).2.2.1 webSocket tcpFlagSyn [] _ rfl).2⟩

end LiteBSD
