/-
# `LiteBSD.Net.Segments` — a buffer as a sequence of segments

The stream part of `sock_sendto` cuts the buffer into chunks of 1460 bytes and
stops at the first one that does not get through.  The payloads that do get
through are a prefix of the buffer, and the numbers on them its offsets
(`Segments`), whatever comes in for the socket on the way: a segment that
arrives changes what is acknowledged, not what is sent next (`tcpStep_sending`).

Every store is inside its array, for a buffer of any length.  What is returned
is the length of that prefix as an `int`, so that it is not a length at all
from 2^31 bytes on.
-/
import LiteBSD.Net.Uplink
import LiteBSD.Net.Stream
import Mathlib.Algebra.Order.BigOperators.Group.List

namespace LiteBSD

/-! ## Pieces -/

/-- Of `total` bytes, `m` have been moved in pieces of `size`; `pass` says which
pieces get through, and the first that does not is the last one tried. -/
structure MovedUpTo (size : Nat) (pass : Nat → Bool) (total m : Nat) : Prop where
  le : m ≤ total
  passed : ∀ k, size * k < m → pass k = true
  stopped : m < total → size ∣ m ∧ pass (m / size) = false

section Pieces

variable {size : Nat} {pass : Nat → Bool} {total m : Nat}

theorem MovedUpTo.none (h : pass 0 = false) : MovedUpTo size pass total 0 :=
  ⟨Nat.zero_le _, fun _ hk => absurd hk (Nat.not_lt_zero _), fun _ => ⟨Nat.dvd_zero _, by rwa [Nat.zero_div]⟩⟩

/-- A piece has got through, and with the others it goes on. -/
theorem MovedUpTo.piece (hsize : 0 < size) (hpass : pass 0 = true)
    (h : MovedUpTo size (fun k => pass (k + 1)) (total - min size total) m) :
    MovedUpTo size pass total (min size total + m) := by
  have hle := h.le
  refine ⟨by omega, fun k hk => ?_, fun hlt => ?_⟩
  · cases k with
    | zero => exact hpass
    | succ k =>
        rw [Nat.mul_succ] at hk
        refine h.passed k ?_
        omega
  · obtain ⟨hdvd, hstop⟩ := h.stopped (by omega)
    have hfull : min size total = size := by omega
    rw [hfull]
    refine ⟨(Nat.dvd_add_iff_right (Nat.dvd_refl size)).mp hdvd, ?_⟩
    rwa [Nat.add_comm, Nat.add_div_right m hsize]

theorem MovedUpTo.all (h : MovedUpTo size pass total m) (hall : ∀ k, size * k < total → pass k = true) : m = total := by
  refine Nat.le_antisymm h.le (Nat.le_of_not_lt fun hlt => ?_)
  obtain ⟨hdvd, hstop⟩ := h.stopped hlt
  rw [hall (m / size) (by rwa [Nat.mul_div_cancel' hdvd])] at hstop
  cases hstop

end Pieces

/-! ## Segments -/

/-- The sequence number of a segment that was handed to `ipv4_send`. -/
def segmentSeq (c : Ipv4Call) : Nat := be32 (fun i => c.payload.getD i 0) 4

def segmentPayload (c : Ipv4Call) : List UInt8 := c.payload.drop 20

/-- These calls are segments of the connection that carry these bytes, from its
next sequence number on. -/
structure Segments (s : Socket) (bytes : List UInt8) (cs : List Ipv4Call) : Prop where
  addressed : ∀ c ∈ cs, c.proto = ipprotoTcp ∧ c.dstIp = s.remoteIp
  sizes : ∀ c ∈ cs, 1 ≤ (segmentPayload c).length ∧ (segmentPayload c).length ≤ 1460
  content : (cs.map segmentPayload).flatten = bytes
  seqs : ∀ before c behind, cs = before ++ c :: behind →
    segmentSeq c = u32 (s.localSeq + (before.map segmentPayload).flatten.length)

section Sequences

variable {s s' : Socket} {bytes rest payload : List UInt8} {c : Ipv4Call} {cs : List Ipv4Call} {flags sum : Nat}

/-- Segments carry 1460 bytes each at most. -/
theorem Segments.length_le (h : Segments s bytes cs) : bytes.length ≤ cs.length * 1460 := by
  have hsum : ((cs.map segmentPayload).map List.length).sum ≤ cs.length • 1460 := by
    have hle := List.sum_le_card_nsmul ((cs.map segmentPayload).map List.length) 1460 fun n hn => by
      obtain ⟨payload, hp, rfl⟩ := List.mem_map.mp hn
      obtain ⟨c, hc, rfl⟩ := List.mem_map.mp hp
      exact (h.sizes c hc).2
    rwa [List.length_map, List.length_map] at hle
  rw [← h.content, List.length_flatten]
  exact hsum

theorem Segments.nil (s : Socket) : Segments s [] [] :=
  ⟨nofun, nofun, rfl, fun before c behind h => by
    cases before <;> cases h⟩

/-- A segment in front of those of the connection as it is behind it. -/
theorem Segments.cons (hproto : c.proto = ipprotoTcp) (hdst : c.dstIp = s.remoteIp)
    (hsize : 1 ≤ (segmentPayload c).length ∧ (segmentPayload c).length ≤ 1460) (hseq : segmentSeq c = u32 s.localSeq)
    (hremote : s'.remoteIp = s.remoteIp) (hnext : s'.localSeq = u32 (s.localSeq + (segmentPayload c).length))
    (h : Segments s' rest cs) : Segments s (segmentPayload c ++ rest) (c :: cs) := by
  refine ⟨fun d hd => ?_, fun d hd => ?_, ?_, fun before d behind heq => ?_⟩
  · rcases List.mem_cons.mp hd with rfl | hd
    · exact ⟨hproto, hdst⟩
    · exact hremote ▸ h.addressed d hd
  · rcases List.mem_cons.mp hd with rfl | hd
    · exact hsize
    · exact h.sizes d hd
  · rw [List.map_cons, List.flatten_cons, h.content]
  · cases before with
    | nil =>
        cases heq
        exact hseq
    | cons b before =>
        cases heq
        rw [h.seqs before d behind rfl, hnext, u32_add_u32, List.map_cons, List.flatten_cons, List.length_append,
          Nat.add_assoc]

theorem Segments.eq_nil (h : Segments s [] cs) : cs = [] := by
  cases cs with
  | nil => rfl
  | cons c cs =>
      have hpos := (h.sizes c List.mem_cons_self).1
      have hnone := h.content
      rw [List.map_cons, List.flatten_cons, List.append_eq_nil_iff] at hnone
      rw [hnone.1] at hpos
      cases hpos

theorem segmentPayload_tcp (dst proto : Nat) (r : Int) :
    segmentPayload ⟨dst, proto, tcpSegment s flags sum payload, r⟩ = payload := rfl

theorem segmentSeq_tcp (dst proto : Nat) (r : Int) :
    segmentSeq ⟨dst, proto, tcpSegment s flags sum payload, r⟩ = u32 s.localSeq := by
  show ((UInt8.ofNat (s.localSeq / 65536 / 256)).toNat * 256 + (UInt8.ofNat (s.localSeq / 65536)).toNat) * 65536 +
    ((UInt8.ofNat (s.localSeq / 256)).toNat * 256 + (UInt8.ofNat s.localSeq).toNat) = s.localSeq % 4294967296
  simp only [UInt8.toNat_ofNat']
  omega

end Sequences

/-! ## What comes in meanwhile -/

/-- A connection is what it was, as far as sending goes. -/
structure SameSender (s s' : Socket) : Prop where
  remoteIp : s'.remoteIp = s.remoteIp
  localSeq : s'.localSeq = s.localSeq
  settled : s'.tcpState ≠ .synSent

theorem tcpFin_settled {s : Socket} (h : s.tcpState ≠ .synSent) : (tcpFin s).tcpState ≠ .synSent := by
  unfold tcpFin
  dsimp only
  split
  · nofun
  · exact h

theorem tcpStep_sending {s : Socket} (h : s.tcpState ≠ .synSent) (seg : Segment) : SameSender s (tcpStep s seg) := by
  rcases tcpStep_cases s seg with ⟨_, he⟩ | ⟨hc, _⟩ | ⟨_, _, he⟩ | ⟨_, _, he⟩ | ⟨_, _, he⟩ | ⟨_, _, _, _, he⟩
  · rw [he]
    exact ⟨rfl, rfl, nofun⟩
  · exact absurd (of_decide_eq_true hc).2.1 h
  · rw [he]
    exact ⟨rfl, rfl, h⟩
  · rw [he]
    exact ⟨rfl, rfl, tcpFin_settled h⟩
  · rw [he]
    exact ⟨rfl, rfl, tcpFin_settled h⟩
  · rw [he]
    exact ⟨rfl, rfl, h⟩

theorem sameSender_foldl {s : Socket} (h : s.tcpState ≠ .synSent) (segs : List Segment) :
    SameSender s (segs.foldl tcpStep s) := by
  induction segs generalizing s with
  | nil => exact ⟨rfl, rfl, h⟩
  | cons seg segs ih =>
      have hstep := tcpStep_sending h seg
      have hrest := ih hstep.settled
      exact ⟨hrest.remoteIp.trans hstep.remoteIp, hrest.localSeq.trans hstep.localSeq, hrest.settled⟩

/-! ## The loop -/

section Loop

variable {u : Uplink} {s : Socket} {rest : List UInt8} {fuel len done n : Nat}

theorem opens_called {dev : NetConfig} {dstIp proto : Nat} {payload : List UInt8} {ok : Bool} (k ip : Nat) :
    (u.called dev dstIp proto payload ok).opens ((u.called dev dstIp proto payload ok).calls.length + k) ip =
      u.opens (u.calls.length + (k + 1)) ip := by
  have hlen : (u.called dev dstIp proto payload ok).calls.length + k = u.calls.length + (k + 1) := by
    rw [Uplink.called, List.length_append, List.length_singleton]
    omega
  rw [hlen]
  rfl

/-- A chunk is a segment, which gets through or does not. -/
theorem tcpSendPacket_chunk (hquiet : s.tcpState ≠ .synSent) (flags : Nat) (hpos : 0 < n) (hmax : n ≤ 1460)
    (hn : n ≤ rest.length) :
    ∃ v s', u.tcpSendPacket s flags rest n =
        .ret (v, s', if u.opens u.calls.length s.remoteIp then 0 else -1) ∧ SameSender s s' ∧
      if u.opens u.calls.length s.remoteIp then
        (∀ k ip, v.opens (v.calls.length + k) ip = u.opens (u.calls.length + (k + 1)) ip) ∧
          ∃ c, v.sent = u.sent ++ [c] ∧ segmentPayload c = rest.take n ∧
            ∀ {s'' bytes cs}, s''.remoteIp = s.remoteIp → s''.localSeq = u32 (s.localSeq + n) → Segments s'' bytes cs →
              Segments s (rest.take n ++ bytes) (c :: cs)
      else v.sent = u.sent := by
  cases hdev : u.dev with
  | none =>
      have hno : u.opens u.calls.length s.remoteIp = false := Uplink.opens_none hdev _
      refine ⟨u, s, ?_, ⟨rfl, rfl, hquiet⟩, ?_⟩
      · rw [Uplink.tcpSendPacket, hdev, hno]
        rfl
      · rw [hno]
        rfl
  | some dev =>
      obtain ⟨sum, hsend⟩ := Uplink.tcpSendPacket_eq hdev hmax hn
      refine ⟨_, _, hsend, sameSender_foldl hquiet _, ?_⟩
      have htake : (rest.take n).length = n := List.length_take_of_le hn
      cases hopen : u.opens u.calls.length s.remoteIp with
      | false =>
          rw [if_neg Bool.false_ne_true, Uplink.sent_called]
          exact List.append_nil _
      | true =>
          rw [if_pos rfl]
          refine ⟨opens_called, _, Uplink.sent_called true, rfl, fun hremote hnext hsegs => ?_⟩
          refine Segments.cons rfl rfl ?_ (segmentSeq_tcp _ _ _) hremote ?_ hsegs
          · rw [segmentPayload_tcp, htake]
            exact ⟨hpos, hmax⟩
          · rw [segmentPayload_tcp, htake]
            exact hnext

/-- The buffer goes out in segments, up to the first that does not get
through. -/
theorem sendLoop_spec (hquiet : s.tcpState ≠ .synSent) (hseq : s.localSeq < 4294967296) (hfuel : rest.length < fuel)
    (hlen : done + rest.length = len) :
    ∃ v s' m cs, Uplink.sendLoop len fuel u s rest =
        .ret (v, s', if m < rest.length ∧ done + m = 0 then -1 else int32 (done + m)) ∧
      v.sent = u.sent ++ cs ∧ MovedUpTo 1460 (fun k => u.opens (u.calls.length + k) s.remoteIp) rest.length m ∧
      Segments s (rest.take m) cs ∧ s'.localSeq = u32 (s.localSeq + m) := by
  induction fuel generalizing u s rest done with
  | zero => exact absurd hfuel (Nat.not_lt_zero _)
  | succ fuel ih =>
      have hsame : u32 (s.localSeq + 0) = s.localSeq := Nat.mod_eq_of_lt hseq
      by_cases hnil : rest = []
      · subst hnil
        refine ⟨u, s, 0, [], ?_, (List.append_nil _).symm, ⟨Nat.le_refl _, nofun, nofun⟩, .nil s, hsame.symm⟩
        have hall : done = len := by simpa using hlen
        rw [Uplink.sendLoop, if_pos rfl, ← hall]
        simp
      · have hpos : 0 < rest.length := List.length_pos_iff.mpr hnil
        obtain ⟨n, hn⟩ : ∃ n, n = min 1460 rest.length := ⟨_, rfl⟩
        have hchunk := (Uplink.chunk_eq rest.length).trans hn.symm
        obtain ⟨v, s', hsend, hsender, hcase⟩ :=
          @tcpSendPacket_chunk u s rest n hquiet (tcpFlagAck ||| tcpFlagPsh) (by omega) (by omega) (by omega)
        rw [Uplink.sendLoop, if_neg hnil]
        dsimp only
        rw [hchunk, hsend, Exec.ret_bind]
        dsimp only
        cases hopen : u.opens u.calls.length s.remoteIp with
        | false =>
            rw [hopen, if_neg Bool.false_ne_true] at hcase
            refine ⟨v, s', 0, [], ?_, hcase.trans (List.append_nil _).symm, .none hopen, .nil s,
              hsender.localSeq.trans hsame.symm⟩
            have hfirst : len = rest.length ↔ 0 < rest.length ∧ done + 0 = 0 := by omega
            have hdone : len - rest.length = done + 0 := by omega
            rw [if_neg Bool.false_ne_true, if_pos (by decide), hdone]
            simp only [hfirst]
        | true =>
            rw [hopen, if_pos rfl] at hcase
            obtain ⟨hlater, c, hsent, hpayload, hcons⟩ := hcase
            have hdrop : (rest.drop n).length = rest.length - n := List.length_drop
            rw [if_pos rfl, if_neg (by decide)]
            obtain ⟨w, t, m, cs, hrun, hsent', hmoved, hsegs, hnext⟩ := @ih v (Uplink.advance s' n) (rest.drop n) (done + n)
              hsender.settled (u32_lt _) (by omega) (by omega)
            have hadvance : (Uplink.advance s' n).localSeq = u32 (s.localSeq + n) := by
              rw [← hsender.localSeq]
              rfl
            have hremote : (Uplink.advance s' n).remoteIp = s.remoteIp := hsender.remoteIp
            simp only [hlater, hremote, hdrop] at hmoved
            refine ⟨w, t, n + m, c :: cs, ?_, ?_, ?_, ?_, ?_⟩
            · have hgo : ¬(m < (rest.drop n).length ∧ done + n + m = 0) := by omega
              have hgo' : ¬(n + m < rest.length ∧ done + (n + m) = 0) := by omega
              rw [hrun, if_neg hgo, if_neg hgo', Nat.add_assoc]
            · rw [hsent', hsent, List.append_assoc]
              rfl
            · subst hn
              exact hmoved.piece (by decide) hopen
            · rw [List.take_add]
              exact hcons hremote hadvance hsegs
            · rw [hnext, hadvance, u32_add_u32, Nat.add_assoc]

end Loop

/-! ## The call -/

/-- The buffer has gone out as the result says: `cs` are the segments that got
through. -/
structure Segmented (u : Uplink) (s : Socket) (buf : List UInt8) (s' : Socket) (r : Int) (cs : List Ipv4Call) :
    Prop where
  failed : buf ≠ [] → u.opens u.calls.length s.remoteIp = false → r = -1 ∧ cs = []
  begun : buf = [] ∨ u.opens u.calls.length s.remoteIp = true →
    ∃ n : Nat, r = n ∧ n ≤ buf.length ∧ Segments s (buf.take n) cs
  whole : (∀ k, 1460 * k < buf.length → u.opens (u.calls.length + k) s.remoteIp = true) → r = buf.length
  next : s'.localSeq = u32 (s.localSeq + (cs.map segmentPayload).flatten.length)

section Call

variable {u : Uplink} {s : Socket} {buf : List UInt8}

/-- No array is overrun, and the result is the length of what got through, as
an `int`. -/
theorem sockSendto_stream (hstream : s.type = sockStream) (hest : s.tcpState = .established)
    (hseq : s.localSeq < 4294967296) (u : Uplink) (buf : List UInt8) (dstIp dstPort : Nat) :
    ∃ v s' m cs, u.sockSendto s buf dstIp dstPort =
        .ret (v, s', if m < buf.length ∧ m = 0 then -1 else int32 m) ∧
      v.sent = u.sent ++ cs ∧ MovedUpTo 1460 (fun k => u.opens (u.calls.length + k) s.remoteIp) buf.length m ∧
      Segments s (buf.take m) cs ∧ s'.localSeq = u32 (s.localSeq + m) := by
  have hquiet : s.tcpState ≠ .synSent := by
    rw [hest]
    nofun
  obtain ⟨v, s', m, cs, hrun, hrest⟩ := @sendLoop_spec u s buf (buf.length + 1) buf.length 0 hquiet hseq
    (Nat.lt_succ_self _) (Nat.zero_add _)
  have hloop : u.sockSendto s buf dstIp dstPort = Uplink.sendLoop buf.length (buf.length + 1) u s buf := by
    unfold Uplink.sockSendto
    dsimp only
    by_cases hzero : buf.length = 0
    · obtain rfl := List.length_eq_zero_iff.mp hzero
      rfl
    · rw [if_neg hzero, if_pos hstream, if_neg (not_not.mpr hest)]
  rw [Nat.zero_add] at hrun
  exact ⟨v, s', m, cs, hloop.trans hrun, hrest⟩

/-- What got through is fewer than 2^31 bytes long if the buffer is, or if one
of the first 1470880 segments does not get through. -/
theorem moved_small_iff {pass : Nat → Bool} {total m : Nat} (h : MovedUpTo 1460 pass total m) :
    m < 2147483648 ↔ total < 2147483648 ∨ ∃ k < 1470880, pass k = false := by
  constructor
  · intro hm
    by_contra hno
    rw [not_or] at hno
    obtain ⟨hdvd, hstop⟩ := h.stopped (by omega)
    exact hno.2 ⟨m / 1460, by omega, hstop⟩
  · rintro (htotal | ⟨k, hk, hfail⟩)
    · exact Nat.lt_of_le_of_lt h.le htotal
    · by_contra hm
      rw [h.passed k (by omega)] at hfail
      cases hfail

/-- A stream is sent as its result says exactly if what gets through is fewer
than 2^31 bytes long; the arrays on the way are never overrun. -/
theorem stream_segments_iff (hstream : s.type = sockStream) (hest : s.tcpState = .established)
    (hseq : s.localSeq < 4294967296) (hsize : buf.length < 4294967296) (u : Uplink) (dstIp dstPort : Nat) :
    (∃ q, u.sockSendto s buf dstIp dstPort = .ret q) ∧
      ((∃ v s' r cs, u.sockSendto s buf dstIp dstPort = .ret (v, s', r) ∧ v.sent = u.sent ++ cs ∧
        Segmented u s buf s' r cs) ↔
        buf.length < 2147483648 ∨ ∃ k < 1470880, u.opens (u.calls.length + k) s.remoteIp = false) := by
  obtain ⟨v, s', m, cs, hrun, hsent, hmoved, hsegs, hnext⟩ := sockSendto_stream hstream hest hseq u buf dstIp dstPort
  refine ⟨⟨_, hrun⟩, ?_⟩
  rw [← moved_small_iff hmoved]
  have hlen : (buf.take m).length = m := List.length_take_of_le hmoved.le
  constructor
  · rintro ⟨v', t, r, cs', hrun', -, hseg⟩
    rw [hrun] at hrun'
    cases hrun'
    by_contra hbig
    have hbegun : u.opens u.calls.length s.remoteIp = true := hmoved.passed 0 (by omega)
    obtain ⟨n, hn, hle, -⟩ := hseg.begun (.inr hbegun)
    have hnot : ¬(m < buf.length ∧ m = 0) := by omega
    rw [if_neg hnot, int32, if_neg hbig] at hn
    have hm := hmoved.le
    omega
  · intro hsmall
    have hr : ¬(m < buf.length ∧ m = 0) → (if m < buf.length ∧ m = 0 then -1 else int32 m) = (m : Int) := fun hgo => by
      rw [if_neg hgo, int32_of_lt hsmall]
    refine ⟨v, s', _, cs, hrun, hsent, fun hne hfail => ?_, fun hbegun => ?_, fun hall => ?_, ?_⟩
    · have hzero : m = 0 := by
        by_contra hm
        exact Bool.false_ne_true (hfail.symm.trans (hmoved.passed 0 (Nat.pos_of_ne_zero hm)))
      subst hzero
      exact ⟨if_pos ⟨List.length_pos_iff.mpr hne, rfl⟩, hsegs.eq_nil⟩
    · refine ⟨m, hr fun ⟨hlt, hzero⟩ => ?_, hmoved.le, hsegs⟩
      subst hzero
      rcases hbegun with rfl | hbegun
      · exact absurd hlt (Nat.lt_irrefl 0)
      · exact Bool.false_ne_true ((hmoved.stopped hlt).2.symm.trans hbegun)
    · have hwhole := hmoved.all hall
      rw [hr fun ⟨hlt, _⟩ => Nat.ne_of_lt hlt hwhole, hwhole]
    · rw [hsegs.content, hlen, hnext]

end Call

/-- A connection to the web server. -/
def webConnection : Socket :=
  { webSocket with type := sockStream, tcpState := .established, localSeq := 5015201, remoteSeq := 501 }

/-- A buffer of 3000 bytes needs three segments at least. -/
theorem three_segments : ∃ v s' cs,
    openUplink.sockSendto webConnection (List.replicate 3000 7) 0 0 = .ret (v, s', 3000) ∧
      v.sent = openUplink.sent ++ cs ∧ 3 ≤ cs.length := by
  have hlen : (List.replicate 3000 (7 : UInt8)).length = 3000 := List.length_replicate
  obtain ⟨v, s', r, cs, hrun, hsent, hseg⟩ :=
    (stream_segments_iff (s := webConnection) rfl rfl (by decide) (by rw [hlen]; decide) openUplink 0 0).2.mpr
      (.inl (by rw [hlen]; decide))
  have hr : r = 3000 := by
    rw [hseg.whole fun _ _ => rfl, hlen]
    rfl
  obtain ⟨n, hn, -, hsegs⟩ := hseg.begun (.inr rfl)
  subst hr
  have htake : (List.replicate 3000 (7 : UInt8)).take n = List.replicate 3000 7 :=
    List.take_of_length_le (by rw [hlen]; omega)
  have hle := (htake ▸ hsegs).length_le
  rw [hlen] at hle
  exact ⟨v, s', cs, hrun, hsent, by omega⟩

/-- Of 2^31 bytes, which all get out, the call reports a negative number. -/
theorem long_stream_misreported : ¬∀ (u : Uplink) (s : Socket) (buf : List UInt8) (dstIp dstPort : Nat),
    s.type = sockStream → s.tcpState = .established → s.localSeq < 4294967296 → buf.length < 4294967296 →
    ∃ v s' r cs, u.sockSendto s buf dstIp dstPort = .ret (v, s', r) ∧ v.sent = u.sent ++ cs ∧
      Segmented u s buf s' r cs := by
  intro hall
  obtain ⟨buf, hbuf⟩ : ∃ buf : List UInt8, buf.length = 2147483648 := ⟨List.replicate _ 0, List.length_replicate⟩
  obtain ⟨v, s', m, cs, hrun, -, hmoved, -⟩ := @sockSendto_stream webConnection rfl rfl (by decide) openUplink buf 0 0
  obtain ⟨v', t, r, cs', hrun', -, hseg⟩ := hall openUplink webConnection buf 0 0 rfl rfl (by decide) (by omega)
  rw [hrun] at hrun'
  cases hrun'
  have hopen : ∀ k, openUplink.opens k webConnection.remoteIp = true := fun _ => rfl
  have hm := hmoved.all fun _ _ => hopen _
  have hr := hseg.whole fun _ _ => hopen _
  have hnot : ¬(m < buf.length ∧ m = 0) := by omega
  rw [if_neg hnot, int32, if_neg (by omega)] at hr
  omega

end LiteBSD
