/-
# `LiteBSD.Net.Neighbours` — machines that find each other

A cache has 32 entries and drops what does not fit, and nothing in it ever
expires.  With at most 32 machines on the wire, each with an address of its own
(`Few`), that is no loss: a machine that has heard a packet for address
resolution from another one can send to it at once, from then on and in every
later state (`neighbour_known`).

Nor can a call of `ipv4_send` be stuck for a machine that is there.  In every
state in which it waits, its request is on the wire; when that is heard, and
then the reply, the next look into the cache sends the packet
(`waiting_call_completes`).
-/
import LiteBSD.Net.Lan

namespace LiteBSD

open Lib

namespace Lan

/-- At most as many machines as a cache has entries, each with its own address. -/
structure Few {ι : Type} [Fintype ι] (K : Config ι) : Prop where
  distinct : Function.Injective fun i => (K.dev i).ip
  few : Fintype.card ι ≤ arpTableSize

/-- The event is that a packet of `j` for address resolution comes in. -/
def Hears {ι : Type} (K : Config ι) (J : List (ι × Note)) (j : ι) : LanEvent → Prop
  | .receive m len => ∃ frame, (j, Note.frame frame) ∈ J ∧ ArpFrame (K.dev j) frame ∧ HoldsAt m 0 frame ∧ frame.length ≤ len
  | _ => False

section Cache

variable {ι : Type} {K : Config ι} {J : List (ι × Note)} {i j l : ι} {h : Host}

theorem ipv4Send_arp (c : IpSend) (behind : List Input) : (h.ipv4Send c behind).1.arp = h.arp := by
  unfold Host.ipv4Send
  split
  · rfl
  split
  · rfl
  · rfl

/-- The call that waits sends at once when the cache has the next hop. -/
theorem lookAgain_known {w : Wait} {waits : List Wait} {mac : Mac} (hwaits : h.waits = w :: waits)
    (hknows : h.resolved (nextHop h.dev w.send.dstIp) = some mac) :
    h.lookAgain = { h with waits := waits }.goesOut mac w.send w.behind := by
  have hknows' : { h with waits := waits }.resolved (nextHop h.dev w.send.dstIp) = some mac := hknows
  unfold Host.lookAgain
  rw [hwaits]
  dsimp only
  rw [hknows']

theorem lookAgain_arp : h.lookAgain.1.arp = h.arp := by
  unfold Host.lookAgain
  split
  · rfl
  dsimp only
  split
  · rfl
  split
  · rfl
  · rfl

theorem messageRx_arp (m : Nat → UInt8) (srcIp proto off len : Nat) :
    (h.messageRx m srcIp proto off len).1.arp = h.arp := by
  unfold Host.messageRx
  dsimp only
  split
  · exact ipv4Send_arp _ _
  · rfl

theorem ipv4Rx_arp (m : Nat → UInt8) (off len : Nat) : (h.ipv4Rx m off len).1.arp = h.arp := by
  unfold Host.ipv4Rx
  split
  · rfl
  dsimp only
  split
  · rfl
  · exact messageRx_arp _ _ _ _ _

/-- A packet of `j` for address resolution comes to the function for it. -/
theorem ethernetRx_arp {m : Nat → UInt8} {dstMac targetMac : Mac} {opcode targetIp len : Nat}
    (hm : HoldsAt m 0 (arpFrame (K.dev j) dstMac opcode targetMac targetIp))
    (hlen : (arpFrame (K.dev j) dstMac opcode targetMac targetIp).length ≤ len) :
    h.ethernetRx m len = h.arpRx m 14 (len - 14) ∧ 28 ≤ len - 14 ∧
      ArpFields m 14 (opcode % 65536) (K.dev j).ip (u32 targetIp) (K.dev j).mac := by
  obtain ⟨htype, hpacket⟩ := ethernet_fields hm
  have hfields := arpPacket_fields hpacket
  simp only [arpFrame, List.length_append, dstMac.six, (K.dev j).mac.six, putBe16_length, arpPacket_length] at hlen
  have hip : u32 (K.dev j).ip = (K.dev j).ip := Nat.mod_eq_of_lt (K.ip_lt j)
  rw [hip] at hfields
  refine ⟨?_, by omega, hfields⟩
  unfold Host.ethernetRx
  rw [if_neg (by omega), htype]
  dsimp only
  rw [if_pos (by decide)]

/-- The machine that is heard is cached, if there is room. -/
theorem hears_arp {e : LanEvent} (he : Hears K J j e) :
    (e.run h).1.arp = arpAddEntry h.arp (K.dev j).ip (K.dev j).mac.bytes := by
  cases e with
  | send c => cases he
  | lookAgain => cases he
  | receive m len =>
      obtain ⟨frame, -, ⟨dstMac, opcode, targetMac, targetIp, rfl⟩, hm, hlen⟩ := he
      obtain ⟨hrun, hlong, hfields⟩ := ethernetRx_arp (h := h) hm hlen
      show (h.ethernetRx m len).1.arp = _
      rw [hrun, arpRx_host (Nat.not_lt.mpr hlong), hfields.senderMac, hfields.senderIp]

/-- What an event does to the cache: nothing, or a machine is heard. -/
theorem run_arp {e : LanEvent} (hJ : ∀ x ∈ J, Genuine K J x.1 x.2) (he : Arrived J e) :
    (e.run h).1.arp = h.arp ∨ ∃ l, (e.run h).1.arp = arpAddEntry h.arp (K.dev l).ip (K.dev l).mac.bytes := by
  cases e with
  | send c => exact .inl (ipv4Send_arp c [])
  | lookAgain => exact .inl lookAgain_arp
  | receive m len =>
      obtain ⟨j, frame, hframe, hm, hlen⟩ := he
      have hgenuine : Genuine K J j (.frame frame) := hJ _ hframe
      rcases hgenuine with ⟨dstMac, opcode, targetMac, targetIp, rfl⟩ | ⟨c, reply, mac, ipId, -, -, hbytes⟩
      · have hears : Hears K J j (.receive m len) := ⟨_, hframe, ⟨_, _, _, _, rfl⟩, hm, hlen⟩
        exact .inr ⟨j, hears_arp hears⟩
      · left
        show (h.ethernetRx m len).1.arp = _
        obtain ⟨-, nextMac, -, rfl⟩ := ipv4Send_some hbytes
        obtain ⟨htype, -⟩ := ethernet_fields hm
        unfold Host.ethernetRx
        split
        · rfl
        rw [htype]
        dsimp only
        rw [if_neg (by decide), if_pos (by decide)]
        exact ipv4Rx_arp _ _ _

/-- The machine has the address of `j`. -/
def Knows (K : Config ι) (h : Host) (j : ι) : Prop := arpLookup h.arp (K.dev j).ip = some (K.dev j).mac.bytes

theorem Knows.resolved (hk : Knows K h j) (hip : (K.dev j).ip ≠ 0xFFFFFFFF) :
    h.resolved (K.dev j).ip = some (K.dev j).mac := by
  unfold Host.resolved
  rw [if_neg hip, show arpLookup h.arp (K.dev j).ip = _ from hk]
  exact macOf_bytes _

/-- A packet for address resolution leaves the calls under way alone. -/
theorem hears_waits {e : LanEvent} (he : Hears K J j e) : (e.run h).1.waits = h.waits := by
  cases e with
  | send c => cases he
  | lookAgain => cases he
  | receive m len =>
      obtain ⟨frame, -, ⟨dstMac, opcode, targetMac, targetIp, rfl⟩, hm, hlen⟩ := he
      obtain ⟨hrun, hlong, -⟩ := ethernetRx_arp (h := h) hm hlen
      show (h.ethernetRx m len).1.waits = _
      rw [hrun, arpRx_host (Nat.not_lt.mpr hlong)]

theorem receiveFrame_hears {dstMac targetMac : Mac} {opcode targetIp : Nat}
    (hf : (j, Note.frame (arpFrame (K.dev j) dstMac opcode targetMac targetIp)) ∈ J) :
    Hears K J j (receiveFrame (arpFrame (K.dev j) dstMac opcode targetMac targetIp)) :=
  ⟨_, hf, ⟨_, _, _, _, rfl⟩, textMem_holds _, Nat.le_refl _⟩

theorem Hears.arrived {e : LanEvent} (he : Hears K J j e) : Arrived J e := by
  cases e with
  | send c => trivial
  | lookAgain => trivial
  | receive m len =>
      obtain ⟨frame, hf, -, hrest⟩ := he
      exact ⟨j, frame, hf, hrest⟩

/-- The machine that is asked for replies. -/
theorem request_answered (hdev : h.dev = K.dev j) :
    ((receiveFrame (arpFrame (K.dev i) broadcast 1 noMac (K.dev j).ip)).run h).2 =
      [.frame (arpFrame (K.dev j) (K.dev i).mac 2 (K.dev i).mac (K.dev i).ip)] := by
  obtain ⟨hrun, hlong, hfields⟩ :=
    ethernetRx_arp (h := h) (textMem_holds (arpFrame (K.dev i) broadcast 1 noMac (K.dev j).ip)) (Nat.le_refl _)
  have hip : u32 (K.dev j).ip = (K.dev j).ip := Nat.mod_eq_of_lt (K.ip_lt j)
  rw [hip] at hfields
  show (h.ethernetRx _ _).2 = _
  rw [hrun]
  unfold Host.arpRx
  rw [if_neg (Nat.not_lt.mpr hlong)]
  dsimp only
  rw [hfields.opcode, hfields.targetIp, hdev, if_pos ⟨rfl, rfl⟩, hfields.senderMac, hfields.senderIp, ethernetSend_arp]
  rfl

theorem lan_trace [DecidableEq ι] {w : World ι Host Note}
    {tr : List (World ι Host Note × (ι × LanEvent) × World ι Host Note)} (h : (lan K).system.Trace tr w) :
    (lan K).system.Reach w := by
  induction h with
  | nil h => exact .init h
  | snoc _ hs ih => exact .step ih trivial hs

end Cache

section Known

variable {ι : Type} [Fintype ι] {K : Config ι} {J : List (ι × Note)} {i j : ι} {h : Host}

/-- There is room for every machine. -/
theorem Honest.stored (hh : Honest K J i h) (hK : Few K) (j : ι) : Stored h.arp (K.dev j).ip := by
  classical
  by_cases hfree : HasFree h.arp
  · exact .inr hfree
  refine .inl (by_contra fun hnew => ?_)
  -- 32 other machines are in the table, and this one comes on top
  have hothers : 32 ≤ ((Finset.univ.image fun i => (K.dev i).ip).erase (K.dev j).ip).card := by
    refine known_of_full hh.unique hfree _ fun target ⟨k, hk, hip⟩ => Finset.mem_erase.mpr ⟨?_, ?_⟩
    · rintro rfl
      exact hnew ⟨k, hk, hip⟩
    · obtain ⟨l, hl, -⟩ := hh.cache k hk
      exact Finset.mem_image.mpr ⟨l, Finset.mem_univ l, hl.trans hip⟩
  have hmem : (K.dev j).ip ∈ Finset.univ.image fun i => (K.dev i).ip := Finset.mem_image_of_mem _ (Finset.mem_univ j)
  have hcard : (Finset.univ.image fun i => (K.dev i).ip).card ≤ 32 := Nat.le_trans Finset.card_image_le hK.few
  rw [Finset.card_erase_of_mem hmem] at hothers
  omega

theorem Honest.hears (hh : Honest K J i h) (hK : Few K) {e : LanEvent} (he : Hears K J j e) : Knows K (e.run h).1 j := by
  rw [Knows, hears_arp he, arpLookup_add hh.unique, if_pos ⟨rfl, hh.stored hK j⟩]

/-- What is known once is known for good. -/
theorem Honest.knows (hh : Honest K J i h) (hK : Few K) {e : LanEvent} (hJ : ∀ x ∈ J, Genuine K J x.1 x.2)
    (he : Arrived J e) (hk : Knows K h j) : Knows K (e.run h).1 j := by
  rcases run_arp (h := h) hJ he with hsame | ⟨l, hl⟩
  · rw [Knows, hsame]
    exact hk
  · rw [Knows, hl, arpLookup_add hh.unique]
    split
    · rename_i hsame
      rw [hK.distinct hsame.1]
    · exact hk

variable [DecidableEq ι] {w : World ι Host Note}

/-- **A neighbour that was heard once is known for good.**  With at most 32
machines, each with an address of its own: when in a run a packet of `j` for
address resolution has come to a machine, that machine sends to `j` without a
request, under the address that `j` has, in every later state. -/
theorem neighbour_known {tr : List (World ι Host Note × (ι × LanEvent) × World ι Host Note)} (hK : Few K)
    (htr : (lan K).system.Trace tr w) {x : World ι Host Note × (ι × LanEvent) × World ι Host Note} (hx : x ∈ tr)
    (hears : Hears K x.1.medium j x.2.1.2) (hip : (K.dev j).ip ≠ 0xFFFFFFFF) :
    (w.party x.2.1.1).resolved (K.dev j).ip = some (K.dev j).mac := by
  refine Knows.resolved ?_ hip
  induction htr with
  | nil h => cases hx
  | @snoc tr w w' e htr hs ih =>
      obtain ⟨he, rfl⟩ := hs
      obtain ⟨hhonest, hgenuine⟩ := lan_genuine (lan_trace htr)
      rcases List.mem_cons.mp hx with rfl | hx
      · show Knows K (Function.update w.party e.1 _ e.1) j
        rw [Function.update_self]
        exact (hhonest e.1).hears hK hears
      · have hk := ih hx
        show Knows K (Function.update w.party e.1 _ x.2.1.1) j
        by_cases hparty : x.2.1.1 = e.1
        · rw [hparty] at hk ⊢
          rw [Function.update_self]
          exact (hhonest e.1).knows hK hgenuine he hk
        · rw [Function.update_of_ne hparty]
          exact hk

/-! ## A call that waits -/

theorem ipv4Send_isSome {dev : NetConfig} {mac : Mac} {ipId : Nat} {c : IpSend} (hsize : c.payload.length ≤ 1480) :
    ∃ frame, LiteBSD.ipv4Send dev (fun _ => some mac) ipId c.dstIp c.proto c.payload = some frame := by
  unfold LiteBSD.ipv4Send
  rw [if_neg (Nat.not_lt.mpr hsize)]
  dsimp only
  unfold ethernetSend
  rw [List.length_append, ipHeader_length, if_neg (by omega)]
  exact ⟨_, rfl⟩

/-- **A call does not wait for nothing.**  In every reachable state in which the
latest call under way on a machine waits for the address of `j`, three steps send
its packet to `j`: the request is heard, the reply is heard, and the loop looks
again. -/
theorem waiting_call_completes (hK : Few K) (hr : (lan K).system.Reach w) {wt : Wait} {rest : List Wait}
    (hw : (w.party i).waits = wt :: rest) (hhop : nextHop (K.dev i) wt.send.dstIp = (K.dev j).ip)
    (hip : (K.dev j).ip ≠ 0xFFFFFFFF) : ∃ e₁ e₂ w₁ w₂ w₃, (lan K).system.step w (j, e₁) w₁ ∧
      (lan K).system.step w₁ (i, e₂) w₂ ∧ (lan K).system.step w₂ (i, .lookAgain) w₃ ∧ (w₃.party i).waits = rest ∧
      ∃ ipId frame, (i, Note.frame frame) ∈ w₃.medium ∧
        LiteBSD.ipv4Send (K.dev i) (fun _ => some (K.dev j).mac) ipId wt.send.dstIp wt.send.proto wt.send.payload =
          some frame := by
  have hasked : Asked K w.medium i wt.send := ((lan_genuine hr).1 i).calls wt (hw ▸ List.mem_cons_self)
  have hrequest := hasked.request
  rw [hhop] at hrequest
  -- the request is heard
  have hhears₁ := receiveFrame_hears hrequest
  obtain ⟨w₁, hw₁⟩ : ∃ w₁, w₁ = (lan K).act w j (receiveFrame (arpFrame (K.dev i) broadcast 1 noMac (K.dev j).ip)) :=
    ⟨_, rfl⟩
  have hstep₁ : (lan K).system.step w (j, receiveFrame (arpFrame (K.dev i) broadcast 1 noMac (K.dev j).ip)) w₁ :=
    ⟨hhears₁.arrived, hw₁⟩
  have hreply : (j, Note.frame (arpFrame (K.dev j) (K.dev i).mac 2 (K.dev i).mac (K.dev i).ip)) ∈ w₁.medium := by
    rw [hw₁]
    refine List.mem_append_right _ ?_
    show _ ∈ List.map _ ((receiveFrame _).run (w.party j)).2
    rw [request_answered ((lan_genuine hr).1 j).dev]
    exact List.mem_singleton.mpr rfl
  have hwaits₁ : (w₁.party i).waits = wt :: rest := by
    rw [← hw, hw₁]
    show (Function.update w.party j _ i).waits = _
    by_cases hij : i = j
    · subst hij
      rw [Function.update_self]
      exact hears_waits hhears₁
    · rw [Function.update_of_ne hij]
  -- the reply is heard
  have hr₁ : (lan K).system.Reach w₁ := .step hr trivial hstep₁
  have hhears₂ := receiveFrame_hears hreply
  obtain ⟨w₂, hw₂⟩ : ∃ w₂, w₂ =
      (lan K).act w₁ i (receiveFrame (arpFrame (K.dev j) (K.dev i).mac 2 (K.dev i).mac (K.dev i).ip)) := ⟨_, rfl⟩
  have hstep₂ : (lan K).system.step w₁ (i, receiveFrame (arpFrame (K.dev j) (K.dev i).mac 2 (K.dev i).mac (K.dev i).ip))
      w₂ := ⟨hhears₂.arrived, hw₂⟩
  have hparty₂ : w₂.party i =
      ((receiveFrame (arpFrame (K.dev j) (K.dev i).mac 2 (K.dev i).mac (K.dev i).ip)).run (w₁.party i)).1 := by
    rw [hw₂]
    exact Function.update_self ..
  have hwaits₂ : (w₂.party i).waits = wt :: rest := by
    rw [hparty₂, hears_waits hhears₂, hwaits₁]
  have hknows : (w₂.party i).resolved (K.dev j).ip = some (K.dev j).mac := by
    rw [hparty₂]
    exact (((lan_genuine hr₁).1 i).hears hK hhears₂).resolved hip
  -- the loop looks again
  have hdev : (w₂.party i).dev = K.dev i := ((lan_genuine (.step hr₁ trivial hstep₂)).1 i).dev
  have hlook : (w₂.party i).lookAgain = { w₂.party i with waits := rest }.goesOut (K.dev j).mac wt.send wt.behind := by
    refine lookAgain_known hwaits₂ ?_
    rw [hdev, hhop]
    exact hknows
  obtain ⟨frame, hframe⟩ := @ipv4Send_isSome (K.dev i) (K.dev j).mac (w₂.party i).ipId wt.send hasked.size
  refine ⟨_, _, w₁, w₂, (lan K).act w₂ i .lookAgain, hstep₁, hstep₂, ⟨trivial, rfl⟩, ?_, (w₂.party i).ipId, frame, ?_,
    hframe⟩
  · show (Function.update w₂.party i (w₂.party i).lookAgain.1 i).waits = rest
    rw [Function.update_self, hlook]
    rfl
  · refine List.mem_append_right _ (List.mem_map.mpr ⟨.frame frame, ?_, rfl⟩)
    show _ ∈ (w₂.party i).lookAgain.2
    rw [hlook, Host.goesOut]
    dsimp only
    rw [hdev, hframe]
    exact List.mem_singleton.mpr rfl

end Known

/-! ## The two machines -/

theorem twoMachines_few : Few twoMachines where
  distinct := by
    have hdistinct : ∀ i j : Fin 2, (twoMachines.dev i).ip = (twoMachines.dev j).ip → i = j := by decide
    exact hdistinct
  few := by decide

/-- The second machine has heard the request, and knows the first. -/
theorem asker_known : ∃ w : World (Fin 2) Host Note, (w.party 1).resolved 0x0F02000A = some e1000Device.mac := by
  have hrequest : (0, Note.frame (arpFrame e1000Device broadcast 1 noMac 0x1002000A)) ∈ asking.medium := by decide +kernel
  have hheard : Hears twoMachines asking.medium 0 (receiveFrame (arpFrame (twoMachines.dev 0) broadcast 1 noMac 0x1002000A)) :=
    receiveFrame_hears hrequest
  have htr : (lan twoMachines).system.Trace _ asking :=
    .snoc (.nil ⟨fun _ => ⟨rfl, fun _ => rfl, rfl, rfl⟩, rfl⟩) (Network.step_act trivial)
  have htr' := htr.snoc (Network.step_act (N := lan twoMachines) (i := 1) (e := receiveFrame _) hheard.arrived)
  exact ⟨_, neighbour_known twoMachines_few htr' List.mem_cons_self hheard (by decide)⟩

/-- The request of the first machine is not in vain. -/
theorem request_completes : ∃ (w : World (Fin 2) Host Note) (ipId : Nat) (frame : List UInt8),
    (0, Note.frame frame) ∈ w.medium ∧ LiteBSD.ipv4Send e1000Device (fun _ => some secondDevice.mac) ipId 0x1002000A
      ipprotoIcmp [8, 0, 0xEA, 0xD5, 0, 1, 0, 1, 0x61] = some frame := by
  have hwaits : (asking.party 0).waits =
      [⟨⟨0x1002000A, ipprotoIcmp, [8, 0, 0xEA, 0xD5, 0, 1, 0, 1, 0x61]⟩, 200, []⟩] := by decide +kernel
  obtain ⟨-, -, -, -, w₃, -, -, -, -, ipId, frame, hframe, hsend⟩ :=
    waiting_call_completes (j := 1) twoMachines_few asking_reach hwaits (by decide) (by decide)
  exact ⟨w₃, ipId, frame, hframe, hsend⟩

end Lan

end LiteBSD
