/-
# `LiteBSD.Net.Arp` — the neighbour cache

`arp_rx` hands the sender of every ARP packet to `arp_add_entry`, which has a
table of 32 entries: an address that is there gets the new hardware address,
another takes the first free entry, and without a free entry it is dropped.
`arp_resolve` looks an address up and, where there is nothing, asks.

So the table is a map in which the last writer wins, as long as it has not
filled up.  What is proved, for any sequence of packets:

  * no address is ever in the table twice;
  * the sender of a packet can be looked up at once exactly if it was in the
    table before or an entry was free (`Stored`), broadcast apart, which
    `arp_resolve` does not look up;
  * with at most 32 senders in all, every lookup gives the last writer
    (`lastMac`).

A late reply is to be cached by `arp_rx`, says a comment in `arp_resolve`;
the 33rd neighbour's is not.
-/
import LiteBSD.Net.Frame
import Mathlib.Data.Fintype.Card

namespace LiteBSD

open Lib

/-- `s_bcast_mac`. -/
def bcastMac : List UInt8 := List.replicate 6 0xFF

/-- An ARP request goes to everyone; it says who asks for whom. -/
structure ArpRequest where
  senderIp : Nat
  targetIp : Nat
deriving DecidableEq, Repr

/-- The search of `arp_resolve`, which stands there twice. -/
def arpLookup (t : Fin arpTableSize → ArpEntry) (targetIp : Nat) : Option (List UInt8) :=
  ((List.finRange arpTableSize).find? fun i => (t i).valid && (t i).ip == targetIp).map
    fun i => (t i).mac

/-- The retries of `arp_resolve`.  `poll` is what the device does to the
stack when it is polled, and may be different each time. -/
def arpWait (poll : Nat → Stack → Stack) (targetIp : Nat) : Nat → Stack → Stack × Option (List UInt8)
  | 0, st => (st, none)
  | retries + 1, st =>
      let st := poll retries st
      match arpLookup st.arp targetIp with
      | some mac => (st, some mac)
      | none => arpWait poll targetIp retries st

/-- `arp_resolve`: the stack, the requests it has sent, and `out_mac`. -/
def arpResolve (poll : Nat → Stack → Stack) (st : Stack) (targetIp : Nat) :
    Stack × List ArpRequest × Option (List UInt8) :=
  if targetIp = 0xFFFFFFFF then (st, [], some bcastMac)
  else
    match arpLookup st.arp targetIp with
    | some mac => (st, [], some mac)
    | none =>
        let (st', mac) := arpWait poll targetIp 200 st
        (st', [⟨st.devIp, targetIp⟩], mac)

/-- A packet for `arp_rx`, or a call of `arp_add_entry`. -/
inductive ArpEvent where
  | rx (m : Nat → UInt8) (off len : Nat)
  | add (ip : Nat) (mac : List UInt8)

def ArpEvent.run (st : Stack) : ArpEvent → Stack
  | .rx m off len => (arpRx st m off len).1
  | .add ip mac => { st with arp := arpAddEntry st.arp ip mac }

/-- Whom the packet is from: `sender_ip` and `sender_mac`. -/
def ArpEvent.sender : ArpEvent → Option (Nat × List UInt8)
  | .rx m off len => if len < 28 then none else some (le32 m (off + 14), slice m (off + 8) 6)
  | .add ip mac => some (ip, mac)

/-- Packets in any order, from `netstack_init` on. -/
def arpSystem : System Stack ArpEvent where
  init := fun st => ∀ i, (st.arp i).valid = false
  step := fun st e st' => st' = e.run st

/-- No two valid entries are for one address. -/
def UniqueIps (t : Fin arpTableSize → ArpEntry) : Prop :=
  ∀ i j, (t i).valid → (t j).valid → (t i).ip = (t j).ip → i = j

/-- There is an entry for the address. -/
def Known (t : Fin arpTableSize → ArpEntry) (ip : Nat) : Prop :=
  ∃ i, (t i).valid ∧ (t i).ip = ip

def HasFree (t : Fin arpTableSize → ArpEntry) : Prop := ∃ i, (t i).valid = false

/-- The address has an entry, or will get one. -/
def Stored (t : Fin arpTableSize → ArpEntry) (ip : Nat) : Prop := Known t ip ∨ HasFree t

instance (t : Fin arpTableSize → ArpEntry) (ip : Nat) : Decidable (Stored t ip) :=
  inferInstanceAs (Decidable ((∃ i, (t i).valid ∧ (t i).ip = ip) ∨ ∃ i, (t i).valid = false))

/-- After the packet there is one entry for each address, and its sender is
found without a request. -/
def SenderResolved (e : ArpEvent) (st' : Stack) : Prop :=
  UniqueIps st'.arp ∧ ∀ ip mac, e.sender = some (ip, mac) →
    ∀ poll, arpResolve poll st' ip = (st', [], some mac)

/-- The sender of the packet has an entry or gets one; as for broadcast, its
hardware address is the one that is always the answer. -/
def SenderStored (st : Stack) (e : ArpEvent) : Prop :=
  ∀ ip mac, e.sender = some (ip, mac) →
    if ip = 0xFFFFFFFF then mac = bcastMac else Stored st.arp ip

/-- The senders of the packets of a run, the latest first. -/
def packets (tr : List (Stack × ArpEvent × Stack)) : List (Nat × List UInt8) :=
  tr.filterMap fun x => x.2.1.sender

/-- The addresses that have sent packets. -/
def senders (tr : List (Stack × ArpEvent × Stack)) : Finset Nat :=
  ((packets tr).map Prod.fst).toFinset

/-- What the last packet from the address said. -/
def lastMac (tr : List (Stack × ArpEvent × Stack)) (ip : Nat) : Option (List UInt8) :=
  (packets tr).lookup ip

/-! ## The table -/

section Table

variable {t : Fin arpTableSize → ArpEntry} {ip : Nat} {mac : List UInt8}

/-- Everything `arp_add_entry` can do. -/
theorem arpAddEntry_cases (t : Fin arpTableSize → ArpEntry) (ip : Nat) (mac : List UInt8) :
    (∃ i, (t i).valid ∧ (t i).ip = ip ∧
      arpAddEntry t ip mac = Function.update t i ⟨ip, mac, true⟩) ∨
    (¬Known t ip ∧ ∃ i, (t i).valid = false ∧
      arpAddEntry t ip mac = Function.update t i ⟨ip, mac, true⟩) ∨
    (¬Known t ip ∧ ¬HasFree t ∧ arpAddEntry t ip mac = t) := by
  unfold arpAddEntry
  cases hsame : (List.finRange arpTableSize).find? fun i => (t i).valid && (t i).ip == ip with
  | some i =>
      obtain ⟨hvalid, hip⟩ : (t i).valid = true ∧ (t i).ip = ip := by
        simpa using List.find?_some hsame
      refine .inl ⟨i, hvalid, hip, ?_⟩
      rw [← hip, ← hvalid]
  | none =>
      have hnew : ¬Known t ip := by
        rintro ⟨i, hvalid, hip⟩
        have hi := List.find?_eq_none.mp hsame i (List.mem_finRange i)
        simp [hvalid, hip] at hi
      cases hfree : (List.finRange arpTableSize).find? fun i => !(t i).valid with
      | some i => exact .inr (.inl ⟨hnew, i, by simpa using List.find?_some hfree, rfl⟩)
      | none =>
          refine .inr (.inr ⟨hnew, ?_, rfl⟩)
          rintro ⟨i, hi⟩
          have hall := List.find?_eq_none.mp hfree i (List.mem_finRange i)
          simp [hi] at hall

/-- With one entry for each address, a lookup finds it. -/
theorem arpLookup_eq_some (hu : UniqueIps t) :
    arpLookup t ip = some mac ↔ ∃ i, (t i).valid ∧ (t i).ip = ip ∧ (t i).mac = mac := by
  unfold arpLookup
  constructor
  · intro h
    obtain ⟨i, hi, hmac⟩ := Option.map_eq_some_iff.mp h
    obtain ⟨hvalid, hip⟩ : (t i).valid = true ∧ (t i).ip = ip := by simpa using List.find?_some hi
    exact ⟨i, hvalid, hip, hmac⟩
  · rintro ⟨i, hvalid, hip, hmac⟩
    cases hfind : (List.finRange arpTableSize).find? fun j => (t j).valid && (t j).ip == ip with
    | none =>
        have hi := List.find?_eq_none.mp hfind i (List.mem_finRange i)
        simp [hvalid, hip] at hi
    | some j =>
        obtain ⟨hvalid', hip'⟩ : (t j).valid = true ∧ (t j).ip = ip := by
          simpa using List.find?_some hfind
        rw [← hu i j hvalid hvalid' (hip.trans hip'.symm), Option.map_some, hmac]

theorem arpLookup_eq_none : arpLookup t ip = none ↔ ¬Known t ip := by
  unfold arpLookup Known
  rw [Option.map_eq_none_iff, List.find?_eq_none]
  simp [List.mem_finRange]

/-- An entry is overwritten or filled. -/
theorem UniqueIps.update (hu : UniqueIps t) {i : Fin arpTableSize}
    (hi : (t i).valid ∧ (t i).ip = ip ∨ ¬Known t ip) :
    UniqueIps (Function.update t i ⟨ip, mac, true⟩) := by
  -- another valid entry has another address
  have hother (j : Fin arpTableSize) (hj : j ≠ i) (hvalid : (t j).valid) : (t j).ip ≠ ip := by
    intro hip
    rcases hi with ⟨hvalid', hip'⟩ | hnew
    · exact hj (hu j i hvalid hvalid' (hip.trans hip'.symm))
    · exact hnew ⟨j, hvalid, hip⟩
  intro j k hvj hvk hjk
  by_cases hj : j = i <;> by_cases hk : k = i
  · rw [hj, hk]
  · subst hj
    rw [Function.update_of_ne hk] at hvk
    rw [Function.update_self, Function.update_of_ne hk] at hjk
    exact absurd hjk.symm (hother k hk hvk)
  · subst hk
    rw [Function.update_of_ne hj] at hvj
    rw [Function.update_self, Function.update_of_ne hj] at hjk
    exact absurd hjk (hother j hj hvj)
  · rw [Function.update_of_ne hj] at hvj
    rw [Function.update_of_ne hk] at hvk
    rw [Function.update_of_ne hj, Function.update_of_ne hk] at hjk
    exact hu j k hvj hvk hjk

theorem arpAddEntry_unique (hu : UniqueIps t) (ip : Nat) (mac : List UInt8) :
    UniqueIps (arpAddEntry t ip mac) := by
  rcases arpAddEntry_cases t ip mac with ⟨i, hvalid, hip, he⟩ | ⟨hnew, i, _, he⟩ | ⟨_, _, he⟩ <;>
    rw [he]
  · exact hu.update (.inl ⟨hvalid, hip⟩)
  · exact hu.update (.inr hnew)
  · exact hu

/-- A lookup after the packet: its sender is found if it was stored, and for
every other address nothing has changed. -/
theorem arpLookup_add (hu : UniqueIps t) (ip : Nat) (mac : List UInt8) (target : Nat) :
    arpLookup (arpAddEntry t ip mac) target =
      if target = ip ∧ Stored t ip then some mac else arpLookup t target := by
  have hu' := arpAddEntry_unique hu ip mac
  by_cases hstored : Stored t ip
  · obtain ⟨i, hi, he⟩ : ∃ i, ((t i).valid = false ∨ (t i).ip = ip) ∧
        arpAddEntry t ip mac = Function.update t i ⟨ip, mac, true⟩ := by
      rcases arpAddEntry_cases t ip mac with ⟨i, _, hip, he⟩ | ⟨_, i, hfree, he⟩ | ⟨hnew, hfull, _⟩
      · exact ⟨i, .inr hip, he⟩
      · exact ⟨i, .inl hfree, he⟩
      · exact absurd hstored (not_or.mpr ⟨hnew, hfull⟩)
    by_cases htarget : target = ip
    · rw [if_pos ⟨htarget, hstored⟩, arpLookup_eq_some hu', he]
      exact ⟨i, by rw [Function.update_self, htarget]; exact ⟨rfl, rfl, rfl⟩⟩
    · rw [if_neg fun h => htarget h.1]
      refine Option.ext fun mac' => ?_
      rw [arpLookup_eq_some hu', arpLookup_eq_some hu, he]
      refine exists_congr fun j => ?_
      by_cases hj : j = i
      · subst hj
        rw [Function.update_self]
        refine iff_of_false (fun h => htarget h.2.1.symm) fun h => ?_
        rcases hi with hfree | hip
        · rw [hfree] at h
          exact absurd h.1 Bool.false_ne_true
        · exact htarget (h.2.1.symm.trans hip)
      · rw [Function.update_of_ne hj]
  · rw [if_neg fun h => hstored h.2]
    rcases arpAddEntry_cases t ip mac with ⟨i, hvalid, hip, _⟩ | ⟨_, i, hfree, _⟩ | ⟨_, _, he⟩
    · exact absurd (.inl ⟨i, hvalid, hip⟩) hstored
    · exact absurd (.inr ⟨i, hfree⟩) hstored
    · rw [he]

/-- A full table knows 32 addresses. -/
theorem known_of_full (hu : UniqueIps t) (hfull : ¬HasFree t) (known : Finset Nat)
    (hknown : ∀ target, Known t target → target ∈ known) : 32 ≤ known.card := by
  have hvalid (i : Fin arpTableSize) : (t i).valid := by
    by_contra hi
    exact hfull ⟨i, by simpa using hi⟩
  have hmem : ∀ i ∈ (Finset.univ : Finset (Fin arpTableSize)), (t i).ip ∈ known :=
    fun i _ => hknown _ ⟨i, hvalid i, rfl⟩
  have hle := Finset.card_le_card_of_injOn (fun i => (t i).ip) hmem
    fun i _ j _ hij => hu i j (hvalid i) (hvalid j) hij
  rwa [Finset.card_univ, Fintype.card_fin] at hle

end Table

/-! ## Runs -/

section Run

variable {st : Stack} {tr : List (Stack × ArpEvent × Stack)}

/-- What a packet does to the table. -/
theorem arp_run (st : Stack) (e : ArpEvent) :
    (e.run st).arp =
      match e.sender with
      | some (ip, mac) => arpAddEntry st.arp ip mac
      | none => st.arp := by
  cases e with
  | add ip mac => rfl
  | rx m off len =>
      unfold ArpEvent.run ArpEvent.sender arpRx
      dsimp only
      split
      · rfl
      · dsimp only
        split
        · dsimp only
          split <;> rfl
        · rfl

theorem UniqueIps.run (hu : UniqueIps st.arp) (e : ArpEvent) : UniqueIps (e.run st).arp := by
  rw [arp_run]
  split
  · exact arpAddEntry_unique hu _ _
  · exact hu

theorem UniqueIps.of_init (h : arpSystem.init st) : UniqueIps st.arp := by
  intro i j hi
  rw [h i] at hi
  exact absurd hi Bool.false_ne_true

theorem uniqueIps_of_trace (h : arpSystem.Trace tr st) : UniqueIps st.arp := by
  induction h with
  | nil h => exact .of_init h
  | snoc _ hs ih =>
      subst hs
      exact ih.run _

/-- `arp_resolve` answers without a request what the lookup finds, and
broadcast. -/
theorem arpResolve_at_once {ip : Nat} {mac : List UInt8} :
    (∀ poll, arpResolve poll st ip = (st, [], some mac)) ↔
      if ip = 0xFFFFFFFF then mac = bcastMac else arpLookup st.arp ip = some mac := by
  unfold arpResolve
  by_cases hip : ip = 0xFFFFFFFF
  · simp only [if_pos hip, Prod.mk.injEq, Option.some.injEq, true_and]
    exact ⟨fun h => (h fun _ st => st).symm, fun h _ => h.symm⟩
  · simp only [if_neg hip]
    cases hlookup : arpLookup st.arp ip with
    | some mac' =>
        simp only [Prod.mk.injEq, Option.some.injEq, true_and]
        exact ⟨fun h => h fun _ st => st, fun h _ => h⟩
    | none =>
        refine iff_of_false (fun h => ?_) nofun
        have hsent := congrArg (fun r => r.2.1) (h fun _ st => st)
        cases hsent

/-- The sender is resolved exactly if it is stored. -/
theorem senderResolved_iff (hu : UniqueIps st.arp) (e : ArpEvent) :
    SenderResolved e (e.run st) ↔ SenderStored st e := by
  unfold SenderResolved SenderStored
  rw [and_iff_right (hu.run e)]
  refine forall_congr' fun ip => forall_congr' fun mac => imp_congr_right fun hsender => ?_
  rw [arpResolve_at_once, arp_run, hsender]
  by_cases hip : ip = 0xFFFFFFFF
  · rw [if_pos hip, if_pos hip]
  rw [if_neg hip, if_neg hip]
  dsimp only
  rw [arpLookup_add hu]
  by_cases hstored : Stored st.arp ip
  · rw [if_pos ⟨rfl, hstored⟩]
    exact iff_of_true rfl hstored
  · have hnone : arpLookup st.arp ip = none := arpLookup_eq_none.mpr fun h => hstored (.inl h)
    rw [if_neg fun h => hstored h.2, hnone]
    exact iff_of_false nofun hstored

/-- The senders are those who said something last. -/
theorem mem_senders {target : Nat} : target ∈ senders tr ↔ lastMac tr target ≠ none := by
  rw [lastMac, ← Option.isSome_iff_ne_none, List.lookup_isSome_iff, senders, List.mem_toFinset,
    List.mem_map]
  refine exists_congr fun p => and_congr_right fun _ => ?_
  rw [beq_iff_eq]
  exact eq_comm

/-- With at most 32 senders the table is the map of what they said last. -/
theorem arpLookup_eq_lastMac (h : arpSystem.Trace tr st) (hfew : (senders tr).card ≤ 32)
    (target : Nat) : arpLookup st.arp target = lastMac tr target := by
  induction h generalizing target with
  | nil h =>
      refine arpLookup_eq_none.mpr ?_
      rintro ⟨i, hi, _⟩
      rw [h i] at hi
      exact absurd hi Bool.false_ne_true
  | @snoc tr st st' e h hs ih =>
      subst hs
      rw [arp_run]
      cases hsender : e.sender with
      | none =>
          have htr : packets ((st, e, e.run st) :: tr) = packets tr :=
            List.filterMap_cons_none hsender
          rw [senders, htr] at hfew
          rw [lastMac, htr]
          exact ih hfew target
      | some packet =>
          obtain ⟨ip, mac⟩ := packet
          have htr : packets ((st, e, e.run st) :: tr) = (ip, mac) :: packets tr :=
            List.filterMap_cons_some hsender
          rw [senders, htr, List.map_cons, List.toFinset_cons] at hfew
          have hbefore := ih (Nat.le_trans (Finset.card_le_card (Finset.subset_insert _ _)) hfew)
          have hknown (target : Nat) (hk : Known st.arp target) : target ∈ senders tr :=
            mem_senders.mpr fun hlast => arpLookup_eq_none.mp ((hbefore target).trans hlast) hk
          have hstored : Stored st.arp ip := by
            by_cases hfree : HasFree st.arp
            · exact .inr hfree
            refine .inl (by_contra fun hnew => ?_)
            -- 32 others are in the table, and this one comes on top
            have hothers : 32 ≤ ((senders tr).erase ip).card := by
              refine known_of_full (uniqueIps_of_trace h) hfree _ fun target hk => ?_
              refine Finset.mem_erase.mpr ⟨?_, hknown target hk⟩
              rintro rfl
              exact hnew hk
            have hsub : insert ip ((senders tr).erase ip) ⊆ insert ip (senders tr) :=
              Finset.insert_subset_insert _ (Finset.erase_subset _ _)
            have hcard := Finset.card_le_card hsub
            rw [Finset.card_insert_of_notMem (Finset.notMem_erase _ _)] at hcard
            exact absurd (Nat.le_trans hcard hfew) (by omega)
          dsimp only
          rw [arpLookup_add (uniqueIps_of_trace h), lastMac, htr, List.lookup_cons]
          by_cases htarget : target = ip
          · rw [if_pos ⟨htarget, hstored⟩, htarget, beq_self_eq_true]
          · rw [if_neg fun hc => htarget hc.1, beq_eq_false_iff_ne.mpr htarget]
            exact hbefore target

end Run

/-- For every sequence of ARP packets: no address is in the table twice; each
packet's sender is found at once after it exactly if it had an entry or an
entry was free (broadcast apart, which is not looked up); and with at most 32
senders every lookup gives what was said last. -/
theorem arp_cache_last_writer {tr : List (Stack × ArpEvent × Stack)} {st : Stack}
    (h : arpSystem.Trace tr st) :
    UniqueIps st.arp ∧
      ((∀ x ∈ tr, SenderResolved x.2.1 x.2.2) ↔ ∀ x ∈ tr, SenderStored x.1 x.2.1) ∧
      ((senders tr).card ≤ 32 → ∀ target, arpLookup st.arp target = lastMac tr target) := by
  refine ⟨uniqueIps_of_trace h, ?_, arpLookup_eq_lastMac h⟩
  refine System.Trace.good_iff_guarded (I := fun st => UniqueIps st.arp)
    (P := fun _ e st' => SenderResolved e st') (fun _ => .of_init) ?_ ?_ h
  · rintro st e st' hu _ rfl
    exact hu.run e
  · rintro st e st' hu rfl
    exact senderResolved_iff hu e

/-- A reply of 28 bytes from `ip` (below 256) with a hardware address that ends
in `x`. -/
def replyFrom (ip x : UInt8) : ArpEvent :=
  .rx (fun k => [0, 1, 8, 0, 6, 4, 0, 2, 2, 0, 0, 0, 0, x, ip, 0, 0, 0].getD k 0) 0 28

/-- Two replies from one neighbour: the second counts. -/
theorem arp_of_two_replies : ∃ tr st, arpSystem.Trace tr st ∧
    (∀ poll, (arpResolve poll st 5).2 = ([], some [2, 0, 0, 0, 0, 8])) ∧ UniqueIps st.arp ∧
    ((∀ x ∈ tr, SenderResolved x.2.1 x.2.2) ↔ ∀ x ∈ tr, SenderStored x.1 x.2.1) ∧
    ((senders tr).card ≤ 32 → ∀ target, arpLookup st.arp target = lastMac tr target) := by
  have h₁ := System.Trace.nil (S := arpSystem) (s := quietStack) fun _ => rfl
  have h₂ := h₁.snoc (e := replyFrom 5 7) rfl
  have h₃ := h₂.snoc (e := replyFrom 5 8) rfl
  refine ⟨_, _, h₃, fun poll => ?_, arp_cache_last_writer h₃⟩
  rfl

/-- The table knows no more addresses than it has entries. -/
theorem card_known_le {t : Fin arpTableSize → ArpEntry} {known : Finset Nat}
    (h : ∀ target ∈ known, Known t target) : known.card ≤ 32 := by
  have hsub : known ⊆ Finset.univ.image fun i => (t i).ip := by
    intro target hmem
    obtain ⟨i, _, hip⟩ := h target hmem
    exact Finset.mem_image.mpr ⟨i, Finset.mem_univ i, hip⟩
  exact (Finset.card_le_card hsub).trans Finset.card_image_le

/-- The neighbours 1 to `k` have sent a packet each. -/
theorem trace_neighbours (k : Nat) : ∃ tr st, arpSystem.Trace tr st ∧
    senders tr = (Finset.range k).image (· + 1) := by
  induction k with
  | zero => exact ⟨[], quietStack, .nil fun _ => rfl, rfl⟩
  | succ k ih =>
      obtain ⟨tr, st, htr, hsenders⟩ := ih
      refine ⟨_, _, htr.snoc (e := ArpEvent.add (k + 1) [2, 0, 0, 0, 0, 7]) rfl, ?_⟩
      have hcons (st' : Stack) : packets ((st, .add (k + 1) [2, 0, 0, 0, 0, 7], st') :: tr) =
          (k + 1, [2, 0, 0, 0, 0, 7]) :: packets tr := rfl
      rw [Finset.range_add_one, Finset.image_insert, ← hsenders, senders, hcons, List.map_cons,
        List.toFinset_cons]
      rfl

/-- The 33rd neighbour finds no place in the table. -/
theorem arp_of_full_table : ¬∀ tr st, arpSystem.Trace tr st →
    ∀ x ∈ tr, SenderResolved x.2.1 x.2.2 := by
  intro hall
  obtain ⟨tr, st, htr, hsenders⟩ := trace_neighbours 32
  have hcard : (senders tr).card = 32 := by
    rw [hsenders, Finset.card_image_of_injective _ (add_left_injective 1), Finset.card_range]
  have hlookup := arpLookup_eq_lastMac htr (Nat.le_of_eq hcard)
  have hstep := htr.snoc (e := ArpEvent.add 33 [2, 0, 0, 0, 0, 7]) rfl
  -- if the last one were resolved, it would be stored, and 33 addresses in the table
  have hstored := (senderResolved_iff (uniqueIps_of_trace htr) _).mp
    (hall _ _ hstep _ List.mem_cons_self) 33 _ rfl
  rw [if_neg (by decide)] at hstored
  have hknown : ∀ target ∈ insert 33 (senders tr),
      Known (arpAddEntry st.arp 33 [2, 0, 0, 0, 0, 7]) target := by
    intro target hmem
    by_contra hnot
    have hnone := arpLookup_eq_none.mpr hnot
    rw [arpLookup_add (uniqueIps_of_trace htr)] at hnone
    split at hnone
    · cases hnone
    · rename_i hother
      rcases Finset.mem_insert.mp hmem with rfl | hmem
      · exact hother ⟨rfl, hstored⟩
      · exact mem_senders.mp hmem ((hlookup target).symm.trans hnone)
  have hle := card_known_le hknown
  rw [Finset.card_insert_of_notMem, hcard] at hle
  · exact absurd hle (by decide)
  · rw [hsenders]
    decide

end LiteBSD
