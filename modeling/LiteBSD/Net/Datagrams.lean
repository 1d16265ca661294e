/-
# `LiteBSD.Net.Datagrams` — what `sock_sendto` says of a datagram

The length of a datagram becomes 16 bits wide twice before `ipv4_send` looks at
it: `len` does, and the sum with the length of the header does.  So one that is
too long is refused, unless what is left of its length is short
(`handedLen`); then a packet with some other part of the buffer, or less than a
header, gets out, and the call returns `len`.
-/
import LiteBSD.Net.Uplink

namespace LiteBSD

/-! ## What the call should say -/

/-- The longest buffer that fits one packet. -/
def maxPayload (s : Socket) : Nat := if s.type = sockDgram then 1472 else 1480

/-- The length that `ipv4_send` is handed. -/
def handedLen (s : Socket) (len : Nat) : Nat :=
  if s.type = sockDgram then (8 + len % 65536) % 65536 else len % 65536

def targetIp (s : Socket) (dstIp : Nat) : Nat := if dstIp ≠ 0 then dstIp else s.remoteIp

def targetPort (s : Socket) (dstPort : Nat) : Nat := if dstPort ≠ 0 then dstPort else s.remotePort

def packetProto (s : Socket) : Nat :=
  if s.type = sockDgram then ipprotoUdp else if s.protocol ≠ 0 then s.protocol % 256 else ipprotoIcmp

/-- What was handed to `ipv4_send` is the buffer, in a datagram behind a header
that gives its length. -/
def Carries (s : Socket) (buf : List UInt8) (c : Ipv4Call) : Prop :=
  if s.type = sockDgram then
    c.proto = ipprotoUdp ∧ c.payload.drop 8 = buf ∧ be16 (fun i => c.payload.getD i 0) 4 = 8 + buf.length
  else c.payload = buf

/-- The call tells the truth: what it reports is the whole buffer, which got
out, and a buffer that does not fit is refused. -/
structure TellsTruth (u : Uplink) (s : Socket) (buf : List UInt8) (v : Uplink) (r : Int) : Prop where
  reported : 0 ≤ r → r = buf.length ∧ ∃ c, v.sent = u.sent ++ [c] ∧ Carries s buf c
  refused : maxPayload s < buf.length → r = -1

/-! ## What it says -/

section Sending

variable {u : Uplink} {s : Socket} {buf : List UInt8} {dstIp dstPort : Nat}

/-- Does the packet get out? -/
def getsOut (u : Uplink) (s : Socket) (len dstIp : Nat) : Bool :=
  u.dev.any fun dev => u.through dev (targetIp s dstIp) (handedLen s len)

theorem getsOut_iff {len : Nat} : getsOut u s len dstIp = true ↔
    handedLen s len ≤ 1480 ∧ u.opens u.calls.length (targetIp s dstIp) = true := by
  unfold getsOut Uplink.opens Uplink.through
  cases u.dev <;> simp

/-- The header gives the length of the datagram. -/
theorem be16_udpHeader {srcPort port len : Nat} {rest : List UInt8} (hlen : len < 65536) :
    be16 (fun i => (Uplink.udpHeader srcPort port len ++ rest).getD i 0) 4 = len := by
  have hhigh : (UInt8.ofNat (len / 256)).toNat = len / 256 := by
    rw [UInt8.toNat_ofNat']
    exact Nat.mod_eq_of_lt (by omega)
  have hlow : (UInt8.ofNat len).toNat = len % 256 := UInt8.toNat_ofNat'
  show (UInt8.ofNat (len / 256)).toNat * 256 + (UInt8.ofNat len).toNat = len
  rw [hhigh, hlow]
  omega

/-- What is in memory where the packet is handed on. -/
def wire (s : Socket) (port : Nat) (buf : List UInt8) : List UInt8 :=
  if s.type = sockDgram then Uplink.udpHeader s.localPort port ((8 + buf.length % 65536) % 65536) ++ buf.take 1472
  else buf

theorem handedLen_le (s : Socket) (port : Nat) (buf : List UInt8) (h : handedLen s buf.length ≤ 1480) :
    handedLen s buf.length ≤ (wire s port buf).length := by
  unfold handedLen wire at *
  split
  · rename_i htype
    rw [if_pos htype] at h
    rw [List.length_append, Uplink.udpHeader_length, List.length_take]
    omega
  · exact Nat.mod_le _ _

theorem not_stream (htype : s.type = sockDgram ∨ s.type = sockRaw) : s.type ≠ sockStream := by
  rcases htype with h | h <;> rw [h] <;> decide

/-- A packet of the handed length gets out, or none. -/
theorem sockSendto_packet (htype : s.type = sockDgram ∨ s.type = sockRaw) (hne : buf ≠ []) :
    ∃ v, u.sockSendto s buf dstIp dstPort =
        .ret (v, s, if getsOut u s buf.length dstIp then int32 buf.length else -1) ∧
      v.sent = u.sent ++ if getsOut u s buf.length dstIp then
        [⟨targetIp s dstIp, packetProto s, (wire s (targetPort s dstPort) buf).take (handedLen s buf.length), 0⟩]
      else [] := by
  have hlen : buf.length ≠ 0 := fun h0 => hne (List.length_eq_zero_iff.mp h0)
  have hstream := not_stream htype
  obtain ⟨hnone, hsome⟩ : (u.dev = none → u.sockSendto s buf dstIp dstPort = .ret (u, s, -1)) ∧
      ∀ dev, u.dev = some dev → u.sockSendto s buf dstIp dstPort =
        (u.ipv4Send dev (targetIp s dstIp) (packetProto s) (wire s (targetPort s dstPort) buf) (handedLen s buf.length) >>=
          fun q => .ret (q.1, s, if q.2 = 0 then int32 buf.length else -1)) := by
    unfold Uplink.sockSendto wire handedLen packetProto
    dsimp only
    rw [if_neg hlen, if_neg hstream]
    rcases htype with hdgram | hraw
    · simp only [if_pos hdgram]
      refine ⟨fun hdev => by rw [hdev], fun dev hdev => ?_⟩
      rw [hdev]
      dsimp only
      rw [fill_eq (by rw [Uplink.udpHeader_length]; decide), Exec.ret_bind, List.nil_append,
        fill_eq (by rw [Uplink.udpHeader_length, List.length_take]; omega), Exec.ret_bind]
      rfl
    · have hno : s.type ≠ sockDgram := by rw [hraw]; decide
      simp only [if_neg hno, if_pos hraw]
      refine ⟨fun hdev => by rw [hdev], fun dev hdev => ?_⟩
      rw [hdev]
      rfl
  cases hdev : u.dev with
  | none =>
      have hno : getsOut u s buf.length dstIp = false := by rw [getsOut, hdev, Option.any_none]
      refine ⟨u, ?_, ?_⟩
      · rw [hno, hnone hdev]
        rfl
      · rw [hno]
        exact (List.append_nil _).symm
  | some dev =>
      have hout : getsOut u s buf.length dstIp = u.through dev (targetIp s dstIp) (handedLen s buf.length) := by
        rw [getsOut, hdev, Option.any_some]
      refine ⟨u.called dev (targetIp s dstIp) (packetProto s) _ _, ?_, Uplink.sent_called _⟩
      rw [hsome dev hdev, Uplink.ipv4Send_eq (handedLen_le s _ buf), Exec.ret_bind, ← hout]
      cases getsOut u s buf.length dstIp <;> rfl

/-! ## When it is the truth -/

theorem carries_of_fits (hfits : buf.length ≤ maxPayload s) (port dst : Nat) :
    Carries s buf ⟨dst, packetProto s, (wire s port buf).take (handedLen s buf.length), 0⟩ := by
  unfold Carries wire handedLen
  unfold maxPayload at hfits
  split
  · rename_i htype
    rw [if_pos htype] at hfits
    have hmod : buf.length % 65536 = buf.length := Nat.mod_eq_of_lt (by omega)
    have hsum : (8 + buf.length) % 65536 = 8 + buf.length := Nat.mod_eq_of_lt (by omega)
    have htake : buf.take 1472 = buf := List.take_of_length_le hfits
    have hwhole : (Uplink.udpHeader s.localPort port (8 + buf.length) ++ buf).take (8 + buf.length) =
        Uplink.udpHeader s.localPort port (8 + buf.length) ++ buf :=
      List.take_of_length_le (by rw [List.length_append, Uplink.udpHeader_length])
    simp only [hmod, hsum, htake, hwhole]
    exact ⟨if_pos htype, List.drop_left' (Uplink.udpHeader_length _ _ _), be16_udpHeader (by omega)⟩
  · rename_i htype
    rw [if_neg htype] at hfits
    exact List.take_of_length_le (Nat.le_of_eq (Nat.mod_eq_of_lt (by omega)).symm)

/-- `sock_sendto` tells the truth about a datagram if it fits, if the length
that is left of it does not, if nothing gets out, and by chance if `len` reads
as `-1`; and only then. -/
theorem datagram_truth_iff (htype : s.type = sockDgram ∨ s.type = sockRaw) (hne : buf ≠ [])
    (hsize : buf.length < 4294967296) (u : Uplink) (dstIp dstPort : Nat) :
    (∃ v s' r, u.sockSendto s buf dstIp dstPort = .ret (v, s', r) ∧ TellsTruth u s buf v r) ↔
      buf.length ≤ maxPayload s ∨ 1480 < handedLen s buf.length ∨
        u.opens u.calls.length (targetIp s dstIp) = false ∨ buf.length = 4294967295 := by
  obtain ⟨v, hsend, hsent⟩ := @sockSendto_packet u s buf dstIp dstPort htype hne
  constructor
  · rintro ⟨v', s', r, hrun, htrue⟩
    rw [hsend] at hrun
    cases hrun
    by_contra hno
    obtain ⟨hlong, hhanded, hopen, hmax⟩ : ¬buf.length ≤ maxPayload s ∧ ¬1480 < handedLen s buf.length ∧
        ¬u.opens u.calls.length (targetIp s dstIp) = false ∧ ¬buf.length = 4294967295 := by
      simpa only [not_or] using hno
    have hout : getsOut u s buf.length dstIp = true :=
      getsOut_iff.mpr ⟨Nat.le_of_not_lt hhanded, by simpa using hopen⟩
    have hr := htrue.refused (Nat.lt_of_not_le hlong)
    rw [hout, if_pos rfl] at hr
    exact hmax ((int32_eq_neg_one hsize).mp hr)
  · intro hcond
    refine ⟨v, s, _, hsend, fun hr => ?_, fun hlong => ?_⟩
    · have hout : getsOut u s buf.length dstIp = true := by
        by_contra hno
        rw [if_neg hno] at hr
        exact absurd hr (by decide)
      rw [if_pos hout] at hr ⊢
      obtain ⟨hhanded, hopen⟩ := getsOut_iff.mp hout
      rw [hout, if_pos rfl] at hsent
      rcases hcond with hfits | hcond | hcond | hcond
      · have hsmall : buf.length < 2147483648 := by
          unfold maxPayload at hfits
          split at hfits <;> omega
        exact ⟨int32_of_lt hsmall, _, hsent, carries_of_fits hfits _ _⟩
      · exact absurd hhanded (Nat.not_le_of_lt hcond)
      · rw [hcond] at hopen
        cases hopen
      · rw [(int32_eq_neg_one hsize).mpr hcond] at hr
        exact absurd hr (by decide)
    · rcases hcond with hcond | hcond | hcond | hcond
      · exact absurd hlong (Nat.not_lt_of_le hcond)
      · rw [if_neg fun hout => Nat.not_le_of_lt hcond (getsOut_iff.mp hout).1]
      · rw [if_neg fun hout => Bool.false_ne_true (hcond.symm.trans (getsOut_iff.mp hout).2)]
      · rw [(int32_eq_neg_one hsize).mpr hcond, ite_self]

end Sending

/-! ## A long datagram -/

/-- A datagram socket with a peer. -/
def dnsSocket : Socket :=
  { idleSocket with type := sockDgram, localPort := 49153, remoteIp := 0x08080808, remotePort := 53 }

/-- Three bytes get out, and this is what the call says. -/
theorem three_bytes_truthful : ∃ v s' r, openUplink.sockSendto dnsSocket [1, 2, 3] 0 0 = .ret (v, s', r) ∧
    TellsTruth openUplink dnsSocket [1, 2, 3] v r :=
  (datagram_truth_iff (.inl rfl) (by decide) (by decide) openUplink 0 0).mpr (.inl (by decide))

/-- Of 65536 bytes none gets out, and the call reports them all. -/
theorem long_datagram_reported : ¬∀ (u : Uplink) (s : Socket) (buf : List UInt8) (dstIp dstPort : Nat),
    s.type = sockDgram ∨ s.type = sockRaw → buf ≠ [] → buf.length < 4294967296 →
    ∃ v s' r, u.sockSendto s buf dstIp dstPort = .ret (v, s', r) ∧ TellsTruth u s buf v r := by
  intro hall
  have hlen : (List.replicate 65536 (0 : UInt8)).length = 65536 := List.length_replicate
  have hne : List.replicate 65536 (0 : UInt8) ≠ [] := List.ne_nil_of_length_pos (by rw [hlen]; decide)
  have hout : getsOut openUplink dnsSocket 65536 0 = true := by decide
  obtain ⟨v, s', r, hrun, htrue⟩ := hall openUplink dnsSocket _ 0 0 (.inl rfl) hne (by rw [hlen]; decide)
  obtain ⟨v', hsend, -⟩ := @sockSendto_packet openUplink dnsSocket _ 0 0 (.inl rfl) hne
  rw [hsend] at hrun
  cases hrun
  have hr := htrue.refused (by rw [hlen]; decide)
  rw [hlen, hout] at hr
  exact absurd hr (by decide)

end LiteBSD
