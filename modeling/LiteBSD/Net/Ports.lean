/-
# `LiteBSD.Net.Ports` — automatic ports

`next_ephemeral_port` counts from 49152 to 65000 and starts again; nobody
looks whether the port is in use.  A new socket therefore shares its port
with a live one exactly in two cases: an older socket kept its automatic port
through a whole turn of the counter, or a socket was BOUND to the port that
is next.  To say so, the sockets are numbered in the order of their creation.
-/
import LiteBSD.Net.Steps

namespace LiteBSD

open Lib

/-- How many automatic ports there are. -/
def portTurn : Nat := 15849

/-- The automatic port of the socket created as number `k`. -/
def automaticPort (k : Nat) : Nat := 49152 + k % portTurn

/-- The table, how many sockets were created, and for each slot the number
its port comes from, `none` when the port was set by `sock_bind`. -/
structure PortState where
  net : Net
  created : Nat
  number : Fin maxSockets → Option Nat

inductive PortEvent where
  | create (domain type protocol : Nat)
  | bind (i : Fin maxSockets) (ip port : Nat)
  | close (i : Fin maxSockets)
  | destroy (i : Fin maxSockets)

def portStep (st : PortState) : PortEvent → PortState
  | .create domain type protocol =>
      match sockCreate st.net domain type protocol with
      | (net, none) => { st with net := net }
      | (net, some i) =>
          { net := net, created := st.created + 1
            number := Function.update st.number i (some st.created) }
  | .bind i ip port =>
      { st with
        net := (sockBind st.net i ip port).1, number := Function.update st.number i none }
  | .close i => { st with net := (sockClose st.net i).1 }
  | .destroy i => { st with net := sockDestroy st.net i }

/-- The table at boot; no port of a slot is automatic yet. -/
def portSystem : System PortState PortEvent where
  init := fun st => NetBoot st.net ∧ st.created = 0 ∧ ∀ i, st.number i = none
  step := fun st e st' => st' = portStep st e

/-- The slot that `sock_create` returns, if it returns one. -/
def PortEvent.returns (st : PortState) : PortEvent → Option (Fin maxSockets)
  | .create domain type protocol => (sockCreate st.net domain type protocol).2
  | _ => none

/-- A socket that `sock_create` returns has an automatic port that no other
live socket has. -/
def PortUnique (st : PortState) (e : PortEvent) (st' : PortState) : Prop :=
  ∀ i, e.returns st = some i →
    (49152 ≤ (st'.net.slot i).localPort ∧ (st'.net.slot i).localPort ≤ 65000) ∧
      ∀ j, j ≠ i → (st'.net.slot j).refCount > 0 →
        (st'.net.slot j).localPort ≠ (st'.net.slot i).localPort

/-- When a socket is created, no live socket was created a whole number of
turns before, and none is bound to the port that is next. -/
def PortNotHeld (st : PortState) : PortEvent → Prop
  | .create domain _ _ =>
      (domain = afInet ∨ domain = afUnix) → (∃ i, (st.net.slot i).refCount = 0) →
        ∀ j, (st.net.slot j).refCount > 0 →
          match st.number j with
          | some k => k % portTurn ≠ st.created % portTurn
          | none => (st.net.slot j).localPort ≠ automaticPort st.created
  | _ => True

/-- The counter and the automatic ports follow the numbers. -/
structure PortInv (st : PortState) : Prop where
  ephemeral : st.net.ephemeral = automaticPort st.created
  ports : ∀ i k, st.number i = some k → (st.net.slot i).localPort = automaticPort k

section Ports

variable {st : PortState}

theorem nextEphemeralPort_eq {n : Net} {k : Nat} (h : n.ephemeral = automaticPort k) :
    nextEphemeralPort n = ({ n with ephemeral := automaticPort (k + 1) }, automaticPort k) := by
  have hnext : (if (n.ephemeral + 1) % 65536 > 65000 then 49152 else (n.ephemeral + 1) % 65536) =
      automaticPort (k + 1) := by
    rw [h]
    unfold automaticPort portTurn
    split <;> omega
  unfold nextEphemeralPort
  dsimp only
  rw [hnext, h]

theorem freeSlot_isSome_iff {n : Net} :
    (∃ i, freeSlot n = some i) ↔ ∃ i, (n.slot i).refCount = 0 := by
  unfold freeSlot
  rw [← Option.isSome_iff_exists, List.find?_isSome]
  simp

/-- What `sock_create` does, with the port spelled out. -/
theorem sockCreate_eq (h : PortInv st) {domain type protocol : Nat} {i : Fin maxSockets}
    (hi : (sockCreate st.net domain type protocol).2 = some i) :
    freeSlot st.net = some i ∧ (domain = afInet ∨ domain = afUnix) ∧
      sockCreate st.net domain type protocol =
        ({ st.net with
            ephemeral := automaticPort (st.created + 1)
            slot := Function.update st.net.slot i
              (openSocket (st.net.slot i) domain type protocol (automaticPort st.created)) },
          some i) := by
  unfold sockCreate at hi ⊢
  by_cases hd : domain ≠ afInet ∧ domain ≠ afUnix
  · rw [if_pos hd] at hi
    cases hi
  rw [if_neg hd] at hi ⊢
  cases hf : freeSlot st.net with
  | none =>
      rw [hf] at hi
      cases hi
  | some j =>
      rw [hf] at hi
      cases hi
      dsimp only
      rw [nextEphemeralPort_eq h.ephemeral]
      refine ⟨rfl, ?_, rfl⟩
      rw [not_and_or, not_not, not_not] at hd
      exact hd

theorem PortInv.of_init (h : portSystem.init st) : PortInv st := by
  obtain ⟨⟨_, heph, _⟩, hcreated, hnone⟩ := h
  refine ⟨?_, fun i k hk => ?_⟩
  · rw [heph, hcreated]
    rfl
  · rw [hnone i] at hk
    cases hk

/-- A step that changes no port and no number. -/
theorem PortInv.of_same {st' : PortState} (h : PortInv st)
    (heph : st'.net.ephemeral = st.net.ephemeral) (hcreated : st'.created = st.created)
    (hnumber : st'.number = st.number)
    (hports : ∀ i, (st'.net.slot i).localPort = (st.net.slot i).localPort) : PortInv st' := by
  refine ⟨by rw [heph, hcreated, h.ephemeral], fun i k hk => ?_⟩
  rw [hnumber] at hk
  rw [hports i, h.ports i k hk]

theorem localPort_setSlot {n : Net} {i : Fin maxSockets} {s : Socket}
    (h : s.localPort = (n.slot i).localPort) (j : Fin maxSockets) :
    ((n.setSlot i s).slot j).localPort = (n.slot j).localPort := by
  rw [Net.slot_setSlot, Function.update_apply]
  split
  · rename_i hj
    rw [hj, h]
  · rfl

theorem sockClose_ports (n : Net) (i : Fin maxSockets) :
    (sockClose n i).1.ephemeral = n.ephemeral ∧
      ∀ j, ((sockClose n i).1.slot j).localPort = (n.slot j).localPort := by
  unfold sockClose
  dsimp only
  split
  · refine ⟨?_, fun j => ?_⟩
    · show (n.transmit _).1.ephemeral = _
      unfold Net.transmit
      split <;> rfl
    · rw [localPort_setSlot (by rw [slot_tcpSendPacket]), slot_tcpSendPacket]
  · exact ⟨rfl, localPort_setSlot rfl⟩

theorem PortInv.step (h : PortInv st) (e : PortEvent) : PortInv (portStep st e) := by
  cases e with
  | create domain type protocol =>
      simp only [portStep]
      cases hres : (sockCreate st.net domain type protocol).2 with
      | none =>
          rcases sockCreate_cases st.net domain type protocol with hsame | ⟨i, _, hi, _⟩
          · rw [hsame]
            exact h
          · rw [hi] at hres
            cases hres
      | some i =>
          obtain ⟨_, _, hc⟩ := sockCreate_eq h hres
          rw [hc]
          refine ⟨rfl, fun j k hk => ?_⟩
          dsimp only at hk ⊢
          by_cases hj : j = i
          · subst hj
            rw [Function.update_self, Option.some.injEq] at hk
            rw [Function.update_self, ← hk]
            rfl
          · rw [Function.update_of_ne hj] at hk ⊢
            exact h.ports j k hk
  | bind i ip port =>
      refine ⟨h.ephemeral, fun j k hk => ?_⟩
      simp only [portStep] at hk
      by_cases hj : j = i
      · rw [hj, Function.update_self] at hk
        cases hk
      · rw [Function.update_of_ne hj] at hk
        show ((sockBind st.net i ip port).1.slot j).localPort = _
        rw [sockBind, Net.slot_setSlot, Function.update_of_ne hj]
        exact h.ports j k hk
  | close i =>
      obtain ⟨heph, hports⟩ := sockClose_ports st.net i
      exact h.of_same heph rfl rfl hports
  | destroy i => exact h.of_same rfl rfl rfl (localPort_setSlot rfl)

/-- A new socket has a port of its own exactly if the port is not held. -/
theorem portUnique_iff (h : PortInv st) (e : PortEvent) :
    PortUnique st e (portStep st e) ↔ PortNotHeld st e := by
  cases e with
  | create domain type protocol =>
      constructor
      · intro hu hd hfree j hlive
        obtain ⟨i, hi⟩ := freeSlot_isSome_iff.mpr hfree
        have hret : (sockCreate st.net domain type protocol).2 = some i := by
          unfold sockCreate
          rw [if_neg (by rcases hd with hd | hd <;> simp [hd]), hi]
        obtain ⟨_, _, hc⟩ := sockCreate_eq h hret
        have hji : j ≠ i := by
          rintro rfl
          rw [freeSlot_refCount hi] at hlive
          exact absurd hlive (by decide)
        have hne := (hu i hret).2 j hji
        simp only [portStep, hc, Function.update_self, Function.update_of_ne hji] at hne
        have hport : (st.net.slot j).localPort ≠ automaticPort st.created := hne hlive
        cases hk : st.number j with
        | none => exact hport
        | some k =>
            intro hmod
            refine hport ?_
            rw [h.ports j k hk, automaticPort, automaticPort, hmod]
      · intro hg i hret
        obtain ⟨hfree, hd, hc⟩ := sockCreate_eq h hret
        simp only [portStep, hc, Function.update_self]
        refine ⟨?_, fun j hji hlive hport => ?_⟩
        · show 49152 ≤ automaticPort st.created ∧ automaticPort st.created ≤ 65000
          unfold automaticPort portTurn
          omega
        · rw [Function.update_of_ne hji] at hlive hport
          have hheld := hg hd ⟨i, freeSlot_refCount hfree⟩ j hlive
          have hport : (st.net.slot j).localPort = automaticPort st.created := hport
          cases hk : st.number j with
          | none =>
              rw [hk] at hheld
              exact hheld hport
          | some k =>
              rw [hk] at hheld
              rw [h.ports j k hk] at hport
              exact hheld (Nat.add_left_cancel hport)
  | bind i ip port => exact ⟨fun _ => trivial, fun _ j hj => by cases hj⟩
  | close i => exact ⟨fun _ => trivial, fun _ j hj => by cases hj⟩
  | destroy i => exact ⟨fun _ => trivial, fun _ j hj => by cases hj⟩

end Ports

end LiteBSD
