/-
# `LiteBSD.Net.Wire` — the packets of the socket table, on their way out

The socket table of `LiteBSD.Net.Socket` sends packets, and an oracle says
which get through.  `LiteBSD.Net.Uplink` sends bytes through a device.  If the
oracle says what the device does, both come to the same: the same result, the
same socket, and for each packet that is sent a call of `ipv4_send` with its
bytes (`sockSendto_simulates`).
-/
import LiteBSD.Net.Datagrams
import LiteBSD.Net.Segments

namespace LiteBSD

/-- The call hands on the bytes of the packet. -/
def OnWire : Packet → Ipv4Call → Prop
  | .tcp dstIp srcPort dstPort seq ack flags payload, c =>
      c.dstIp = dstIp ∧ c.proto = ipprotoTcp ∧ ∃ s sum,
        tcpPacket s flags payload = .tcp dstIp srcPort dstPort seq ack flags payload ∧
        c.payload = tcpSegment s flags sum payload
  | .udp dstIp srcPort dstPort len payload, c =>
      c.dstIp = dstIp ∧ c.proto = ipprotoUdp ∧ c.payload = (Uplink.udpHeader srcPort dstPort len ++ payload).take len
  | .raw dstIp proto payload, c => c.dstIp = dstIp ∧ c.proto = proto ∧ c.payload = payload

/-- The oracle of the socket table says which calls get through, and nothing
comes in meanwhile. -/
structure SameWay (n : Net) (u : Uplink) (dstIp : Nat) : Prop where
  link : ∀ k, n.link (n.tries + k) = u.opens (u.calls.length + k) dstIp
  quiet : ∀ k, u.arrives k = []

/-- The two levels of a call have come to the same. -/
structure SameSends (n n' : Net) (u v : Uplink) : Prop where
  packets : ∃ ps cs, n'.sent = n.sent ++ ps ∧ v.sent = u.sent ++ cs ∧ List.Forall₂ OnWire ps cs

section Sends

variable {n n' m : Net} {u v w : Uplink} {s : Socket} {i : Fin maxSockets} {dstIp len fuel : Nat} {rest : List UInt8}

theorem SameSends.nothing (hn : n'.sent = n.sent) (hu : v.sent = u.sent) : SameSends n n' u v :=
  ⟨[], [], hn.trans (List.append_nil _).symm, hu.trans (List.append_nil _).symm, .nil⟩

theorem SameSends.one {p : Packet} {c : Ipv4Call} (hn : n'.sent = n.sent ++ [p]) (hu : v.sent = u.sent ++ [c])
    (h : OnWire p c) : SameSends n n' u v :=
  ⟨[p], [c], hn, hu, .cons h .nil⟩

theorem SameSends.trans (h : SameSends n n' u v) (h' : SameSends n' m v w) : SameSends n m u w := by
  obtain ⟨ps, cs, hn, hu, hwire⟩ := h.packets
  obtain ⟨ps', cs', hn', hu', hwire'⟩ := h'.packets
  refine ⟨ps ++ ps', cs ++ cs', ?_, ?_, List.rel_append hwire hwire'⟩
  · rw [hn', hn, List.append_assoc]
  · rw [hu', hu, List.append_assoc]

theorem transmit_eq (n : Net) (p : Packet) : n.transmit p =
    ({ n with sent := n.sent ++ if n.link n.tries then [p] else [], tries := n.tries + 1 },
      if n.link n.tries then 0 else -1) := by
  unfold Net.transmit
  split <;> simp

/-- One chunk, on both levels. -/
theorem tcpSendPacket_simulates (hway : SameWay n u s.remoteIp) (flags : Nat) (rest : List UInt8) :
    ∃ v, u.tcpSendPacket s flags rest (min 1460 rest.length) =
        .ret (v, s, (tcpSendPacket n s flags (rest.take 1460)).2) ∧
      SameSends n (tcpSendPacket n s flags (rest.take 1460)).1 u v ∧
      (¬(tcpSendPacket n s flags (rest.take 1460)).2 < 0 →
        SameWay (tcpSendPacket n s flags (rest.take 1460)).1 v s.remoteIp) := by
  have hlink := hway.link 0
  rw [Nat.add_zero, Nat.add_zero] at hlink
  rw [tcpSendPacket, transmit_eq, hlink]
  cases hdev : u.dev with
  | none =>
      have hno : u.opens u.calls.length s.remoteIp = false := Uplink.opens_none hdev _
      refine ⟨u, ?_, ?_, fun hr => ?_⟩
      · rw [Uplink.tcpSendPacket, hdev, hno]
        rfl
      · exact .nothing (by rw [hno]; exact List.append_nil _) rfl
      · rw [hno] at hr
        exact absurd (show (-1 : Int) < 0 by decide) hr
  | some dev =>
      obtain ⟨sum, hsend⟩ := @Uplink.tcpSendPacket_eq u dev (min 1460 rest.length) rest s flags hdev
        (Nat.min_le_left _ _) (Nat.min_le_right _ _)
      have hstill : u.meanwhile s = s := by rw [Uplink.meanwhile, hway.quiet]; rfl
      have htake : rest.take (min 1460 rest.length) = rest.take 1460 := List.take_eq_take_min.symm
      rw [hstill, htake] at hsend
      refine ⟨_, hsend, ?_, fun _ => ⟨fun k => ?_, hway.quiet⟩⟩
      · have hcall := @Uplink.sent_called u dev s.remoteIp ipprotoTcp (tcpSegment s flags sum (rest.take 1460))
          (u.opens u.calls.length s.remoteIp)
        cases hopen : u.opens u.calls.length s.remoteIp with
        | false =>
            rw [hopen] at hcall
            exact .nothing (List.append_nil _) (hcall.trans (List.append_nil _))
        | true =>
            rw [hopen] at hcall
            exact .one rfl hcall ⟨rfl, rfl, s, sum, rfl, rfl⟩
      · rw [opens_called, ← hway.link]
        show n.link (n.tries + 1 + k) = _
        rw [Nat.add_assoc, Nat.add_comm 1]

/-- The loop, on both levels. -/
theorem sendLoop_simulates (hway : SameWay n u (n.slot i).remoteIp) (hfuel : rest.length ≤ fuel) :
    ∃ v, Uplink.sendLoop len (fuel + 1) u (n.slot i) rest =
        .ret (v, (sendChunks n i len fuel rest).1.slot i, (sendChunks n i len fuel rest).2) ∧
      SameSends n (sendChunks n i len fuel rest).1 u v := by
  induction fuel generalizing n u rest with
  | zero =>
      obtain rfl := List.length_eq_zero_iff.mp (Nat.le_zero.mp hfuel)
      exact ⟨u, rfl, .nothing rfl rfl⟩
  | succ fuel ih =>
      by_cases hnil : rest = []
      · subst hnil
        exact ⟨u, rfl, .nothing rfl rfl⟩
      · have hpos : 0 < rest.length := List.length_pos_iff.mpr hnil
        obtain ⟨v, hsend, hsame, hlater⟩ := tcpSendPacket_simulates hway (tcpFlagAck ||| tcpFlagPsh) rest
        have hslot := slot_tcpSendPacket n (n.slot i) (tcpFlagAck ||| tcpFlagPsh) (rest.take 1460)
        rw [Uplink.sendLoop, sendChunks, if_neg hnil, if_neg hnil]
        dsimp only
        rw [Uplink.chunk_eq, hsend, Exec.ret_bind]
        generalize tcpSendPacket n (n.slot i) (tcpFlagAck ||| tcpFlagPsh) (rest.take 1460) = q at hsame hlater hslot
        obtain ⟨n', r⟩ := q
        dsimp only at hsame hlater hslot ⊢
        by_cases hr : r < 0
        · rw [if_pos hr, if_pos hr]
          refine ⟨v, ?_, hsame⟩
          dsimp only
          rw [hslot]
        · rw [if_neg hr, if_neg hr]
          have hlen : (rest.take 1460).length = min 1460 rest.length := List.length_take
          have hself : (n'.setSlot i (Uplink.advance (n'.slot i) (rest.take 1460).length)).slot i =
              Uplink.advance (n.slot i) (min 1460 rest.length) := by
            rw [Net.slot_setSlot, Function.update_self, hlen, hslot]
          have hdrop : rest.drop (min 1460 rest.length) = rest.drop 1460 := by
            rcases Nat.le_total rest.length 1460 with hle | hge
            · rw [Nat.min_eq_right hle, List.drop_length, List.drop_eq_nil_of_le hle]
            · rw [Nat.min_eq_left hge]
          have hway' : SameWay (n'.setSlot i (Uplink.advance (n'.slot i) (rest.take 1460).length)) v
              ((n'.setSlot i (Uplink.advance (n'.slot i) (rest.take 1460).length)).slot i).remoteIp := by
            rw [hself]
            exact ⟨(hlater hr).link, (hlater hr).quiet⟩
          obtain ⟨w, hrun, hrest⟩ := @ih _ v (rest.drop 1460) hway' (by rw [List.length_drop]; omega)
          rw [hself] at hrun
          rw [hdrop]
          exact ⟨w, hrun, hsame.trans ⟨hrest.packets⟩⟩

/-- The packet that the socket table sends for a buffer. -/
def packetOf (s : Socket) (dstIp dstPort : Nat) (buf : List UInt8) : Packet :=
  if s.type = sockDgram then
    .udp (targetIp s dstIp) s.localPort (targetPort s dstPort) (handedLen s buf.length)
      ((buf.take 1472).take (handedLen s buf.length - 8))
  else .raw (targetIp s dstIp) (packetProto s) (buf.take (handedLen s buf.length))

theorem onWire_packetOf (s : Socket) (dstIp dstPort : Nat) (buf : List UInt8) :
    OnWire (packetOf s dstIp dstPort buf)
      ⟨targetIp s dstIp, packetProto s, (wire s (targetPort s dstPort) buf).take (handedLen s buf.length), 0⟩ := by
  unfold packetOf wire
  split
  · rename_i htype
    have hproto : packetProto s = ipprotoUdp := if_pos htype
    have hhanded : handedLen s buf.length = (8 + buf.length % 65536) % 65536 := if_pos htype
    refine ⟨rfl, hproto, ?_⟩
    rw [← hhanded]
    dsimp only
    rw [List.take_append, List.take_append, Uplink.udpHeader_length, List.take_take, List.take_take, ← Nat.min_assoc, Nat.min_self]
  · exact ⟨rfl, rfl, rfl⟩

/-- A datagram or a raw packet, in the socket table. -/
theorem sockSendto_packet_eq {dstPort : Nat} {buf : List UInt8}
    (htype : (n.slot i).type = sockDgram ∨ (n.slot i).type = sockRaw) (hne : buf ≠ []) :
    sockSendto n i buf dstIp dstPort =
      if handedLen (n.slot i) buf.length > 1480 then (n, -1)
      else ((n.transmit (packetOf (n.slot i) dstIp dstPort buf)).1,
        if (n.transmit (packetOf (n.slot i) dstIp dstPort buf)).2 = 0 then int32 buf.length else -1) := by
  have hlen : buf.length ≠ 0 := fun h0 => hne (List.length_eq_zero_iff.mp h0)
  have hstream := not_stream htype
  unfold sockSendto packetOf handedLen packetProto
  dsimp only
  rw [if_neg hlen, if_neg hstream]
  rcases htype with hdgram | hraw
  · simp only [if_pos hdgram]
    rfl
  · have hno : (n.slot i).type ≠ sockDgram := by rw [hraw]; decide
    simp only [if_neg hno, if_pos hraw]
    rfl

/-- A datagram or a raw packet, on both levels. -/
theorem sockSendto_packet_simulates (dstPort : Nat) {buf : List UInt8}
    (htype : (n.slot i).type = sockDgram ∨ (n.slot i).type = sockRaw) (hne : buf ≠ [])
    (hway : SameWay n u (targetIp (n.slot i) dstIp)) :
    ∃ v, u.sockSendto (n.slot i) buf dstIp dstPort =
        .ret (v, (sockSendto n i buf dstIp dstPort).1.slot i, (sockSendto n i buf dstIp dstPort).2) ∧
      SameSends n (sockSendto n i buf dstIp dstPort).1 u v := by
  have hlink := hway.link 0
  rw [Nat.add_zero, Nat.add_zero] at hlink
  obtain ⟨v, hsend, hsent⟩ := @sockSendto_packet u (n.slot i) buf dstIp dstPort htype hne
  rw [sockSendto_packet_eq htype hne]
  by_cases hlong : handedLen (n.slot i) buf.length > 1480
  · have hno : getsOut u (n.slot i) buf.length dstIp = false := by
      rw [Bool.eq_false_iff]
      exact fun hout => Nat.not_le_of_lt hlong (getsOut_iff.mp hout).1
    rw [hno] at hsend hsent
    rw [if_pos hlong]
    exact ⟨v, hsend, .nothing rfl (hsent.trans (List.append_nil _))⟩
  · have hout : getsOut u (n.slot i) buf.length dstIp = n.link n.tries := by
      rw [hlink, Bool.eq_iff_iff, getsOut_iff]
      exact and_iff_right (Nat.le_of_not_lt hlong)
    rw [hout] at hsend hsent
    rw [if_neg hlong, transmit_eq]
    cases hl : n.link n.tries with
    | false =>
        rw [hl] at hsend hsent
        exact ⟨v, hsend, .nothing (List.append_nil _) (hsent.trans (List.append_nil _))⟩
    | true =>
        rw [hl] at hsend hsent
        exact ⟨v, hsend, .one rfl hsent (onWire_packetOf _ _ _ _)⟩

/-- `sock_sendto` of the socket table, and on the wire. -/
theorem sockSendto_simulates (buf : List UInt8) (dstPort : Nat)
    (hway : SameWay n u (if (n.slot i).type = sockStream then (n.slot i).remoteIp else targetIp (n.slot i) dstIp)) :
    ∃ v, u.sockSendto (n.slot i) buf dstIp dstPort =
        .ret (v, (sockSendto n i buf dstIp dstPort).1.slot i, (sockSendto n i buf dstIp dstPort).2) ∧
      SameSends n (sockSendto n i buf dstIp dstPort).1 u v := by
  by_cases hnil : buf = []
  · subst hnil
    exact ⟨u, rfl, .nothing rfl rfl⟩
  have hlen : buf.length ≠ 0 := fun h0 => hnil (List.length_eq_zero_iff.mp h0)
  by_cases hpacket : (n.slot i).type = sockDgram ∨ (n.slot i).type = sockRaw
  · rw [if_neg (not_stream hpacket)] at hway
    exact sockSendto_packet_simulates dstPort hpacket hnil hway
  · rw [not_or] at hpacket
    unfold Uplink.sockSendto sockSendto
    dsimp only
    rw [if_neg hlen, if_neg hlen]
    by_cases hstream : (n.slot i).type = sockStream
    · rw [if_pos hstream] at hway
      rw [if_pos hstream, if_pos hstream]
      split
      · exact ⟨u, rfl, .nothing rfl rfl⟩
      · exact sendLoop_simulates hway (Nat.le_refl _)
    · rw [if_neg hstream, if_neg hpacket.1, if_neg hpacket.2, if_neg hstream, if_neg hpacket.1, if_neg hpacket.2]
      exact ⟨u, rfl, .nothing rfl rfl⟩

end Sends

end LiteBSD
