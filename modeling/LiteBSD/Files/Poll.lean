/-
# `LiteBSD.Files.Poll` — `sys_poll`, and which object `sys_ioctl` works on

`sys_poll` looks at its descriptors in rounds.  Between two rounds it polls
the network and halts until the next interrupt, so each round finds a kernel
of its own; `rounds` are these kernels, each with the ticks that went by since
the call.

Of `sys_ioctl` only the decision is here that the claims on descriptors need:
what the request is passed on to.  What the framebuffer, the interfaces and
the terminal then do with the argument is left out.
-/
import LiteBSD.Files.Transfer

namespace LiteBSD.Files

open Lib

def conPollIn : Nat := 0x0001
def conPollOut : Nat := 0x0004
def conPollNval : Nat := 0x0020

/-- The events that are asked for, of those that are there. -/
def ready (events : Nat) (input output : Bool) : Nat :=
  (if events &&& conPollIn ≠ 0 ∧ input then conPollIn else 0) |||
    if events &&& conPollOut ≠ 0 ∧ output then conPollOut else 0

def sockPoll (s : Socket) (events : Nat) : Nat :=
  if s.type = sockStream then
    ready events (s.rx.count > 0 ∨ s.finReceived ∨ s.tcpState = .closed)
      (s.tcpState = .established)
  else ready events (s.dgram.count > 0) true

/-- The part of `sys_poll` for the file `x`. -/
def filePoll (k : Kernel) (x : File) (events : Nat) : Exec Nat :=
  if x.bare then .ret (ready events (k.con.typed.length > 0) true)
  else
    match x.sock, x.pipe with
    | .slot i, _ => .ret (sockPoll (k.net.slot i) events)
    | .wild, _ => .undefined
    | .null, some p =>
        match k.pipe p with
        | none => .undefined
        | some q => .ret (ready events (q.ring.count > 0) (q.ring.count < pipeSize))
    -- regular files are always ready
    | .null, none => .ret (ready events true true)

/-- `struct pollfd_k` -/
structure PollFd where
  fd : Int
  events : Nat
  revents : Nat

/-- One descriptor in one round. -/
def pollFd (k : Kernel) (t : Nat) (p : PollFd) : Exec PollFd :=
  if p.fd < 0 then .ret { p with revents := 0 }
  else
    match k.fdAt t p.fd.toNat with
    | none => .ret { p with revents := conPollNval }
    | some f => do
        let x ← k.load f
        let rev ← filePoll k x p.events
        .ret { p with revents := rev }

/-- One round: the descriptors, and how many are ready. -/
def pollRound (k : Kernel) (t : Nat) (fds : List PollFd) : Exec (List PollFd × Nat) := do
  let fds ← fds.mapM (pollFd k t)
  .ret (fds, fds.countP fun p => p.revents ≠ 0)

/-- The loop of `sys_poll`. -/
def pollLoop (t : Nat) (fds : List PollFd) (timeout : Int) :
    List (Kernel × Nat) → Exec (List PollFd × Int)
  | [] => .hang
  | (k, ticks) :: rounds => do
      let (fds, nready) ← pollRound k t fds
      if nready > 0 then .ret (fds, nready)
      else if timeout = 0 then .ret (fds, 0)
      else if timeout > 0 ∧ (ticks : Int) ≥ (timeout + 9) / 10 then .ret (fds, 0)
      else pollLoop t fds timeout rounds

/-- `sys_poll`; `valid` unless the array is `NULL` or not the user's. -/
def sysPoll (t : Nat) (valid : Bool) (fds : List PollFd) (timeout : Int)
    (rounds : List (Kernel × Nat)) : Exec (List PollFd × Int) :=
  if fds.length > 16 then .ret (fds, -1)
  else if fds.length > 0 ∧ !valid then .ret (fds, -1)
  else pollLoop t fds timeout rounds

/-! ## `sys_ioctl` -/

def fionbio : Nat := 0x5421

/-- What a request is passed on to. -/
inductive Route where
  /-- `fb_ioctl` -/
  | framebuffer
  /-- the store into `sock->nonblocking` -/
  | sockFlag
  /-- the store into `pipe->nonblocking` -/
  | pipeFlag
  /-- `SIOCGIFCONF` and the other requests on interfaces -/
  | interfaces
  /-- `CON_TCGETS` and the other requests on the terminal -/
  | terminal
  /-- `return -1` -/
  | refused
deriving DecidableEq

def vfsIsFb0 (v : Vfs) (n : Nat) : Exec Bool := do
  let node ← v.load n
  .ret (node.path = devFb0)

/-- `node && vfs_is_fb0(node)` -/
def File.isFb0 (x : File) (v : Vfs) : Exec Bool :=
  match x.node with
  | none => .ret false
  | some n => vfsIsFb0 v n

/-- `FIONBIO`; `valid` unless the argument is `NULL` or not the user's. -/
def nonblockRoute (x : File) (valid : Bool) : Route :=
  if !valid then .refused
  else if x.sock ≠ .null then .sockFlag
  else if x.pipe ≠ none then .pipeFlag
  else .refused

/-- The dispatch of `sys_ioctl`. -/
def ioctlRoute (k : Kernel) (t fd request : Nat) (valid : Bool) : Exec Route :=
  match k.fdAt t fd with
  | none => .ret .refused
  | some f => do
      let x ← k.load f
      let fb ← x.isFb0 k.vfs
      if fb then .ret .framebuffer
      else if request = fionbio then .ret (nonblockRoute x valid)
      else if x.sock ≠ .null then .ret .interfaces
      else
        let console ← isConsoleFd k t fd
        .ret (if console then .terminal else .refused)

end LiteBSD.Files
