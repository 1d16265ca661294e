/-
# `LiteBSD.Files.Kinds` — four calls, four decisions what a descriptor is

`sys_read`, `sys_write`, `sys_poll` and `sys_ioctl` each look at the three
pointers of a file, and at the path of its node, in an order of their own:

| call | the console first, if | then |
| :-- | :-- | :-- |
| `sys_read` | no pipe, and no node or a terminal | socket, pipe, node |
| `sys_write` | no pointer at all | socket, pipe, node |
| `sys_poll` | no pointer at all | socket, pipe, node |
| `sys_ioctl` | never: `/dev/fb0`, socket, pipe come before it | no pipe, and no node or a terminal |

`readKind`, `bareKind` and `ioctlRoute` are these decisions, each with the
lemma that its call goes by it.  `kinds_agree_iff` says for which descriptors
they come out the same.
-/
import LiteBSD.Files.Poll
import LiteBSD.Files.System

namespace LiteBSD.Files

open Lib

inductive Kind where
  | console
  | socket
  | pipe
  | node
deriving DecidableEq

/-- A descriptor of the task `t`, with its file and the path of its node. -/
structure Descriptor (k : Kernel) (t fd : Nat) where
  addr : Nat
  file : File
  path : Option CStr
  installed : k.fdAt t fd = some addr
  loaded : k.file addr = some file
  named : ∀ n, file.node = some n → ∃ m, k.vfs.node n = some m ∧ path = some m.path
  unnamed : file.node = none → path = none

/-- The tests for a socket, a pipe and a node, in this order. -/
def File.behind (x : File) : Kind :=
  if x.sock ≠ .null then .socket else if x.pipe ≠ none then .pipe else .node

namespace Descriptor

variable {k : Kernel} {t fd : Nat}

/-- `vfs_is_tty(f->node)` -/
def tty (d : Descriptor k t fd) : Bool := d.path = some devTty ∨ d.path = some devConsole

/-- `vfs_is_fb0(f->node)` -/
def fb0 (d : Descriptor k t fd) : Bool := d.path = some devFb0

/-- `sys_read` -/
def readKind (d : Descriptor k t fd) : Kind :=
  if d.file.pipe = none ∧ (d.file.node = none ∨ d.tty) then .console else d.file.behind

/-- `sys_write` and `sys_poll` -/
def bareKind (d : Descriptor k t fd) : Kind :=
  if d.file.bare then .console else d.file.behind

end Descriptor

/-- The kind of object a request of `sys_ioctl` is passed on to. -/
def Route.kind : Route → Option Kind
  | .framebuffer => some .node
  | .sockFlag | .interfaces => some .socket
  | .pipeFlag => some .pipe
  | .terminal => some .console
  | .refused => none

/-! ## What is done for a kind -/

/-- A read of a descriptor taken for `kind`. -/
def readAs (k : Kernel) (f : Nat) (x : File) (buf : Nat → UInt8) (count : Nat) :
    Kind → Exec (Kernel × (Nat → UInt8) × Int)
  | .console => do
      let (con, buf, r) ← consoleRead k.con buf count
      .ret ({ k with con := con }, buf, r)
  | .socket =>
      match x.sock with
      | .slot i =>
          let (net, bytes, r) := sockRecvfrom k.net i count
          .ret ({ k with net := net }, overlay bytes buf, r)
      | _ => .undefined
  | .pipe =>
      match x.pipe.bind fun p => (k.pipe p).map (p, ·) with
      | none => .undefined
      | some (p, q) => do
          let (q, bytes) ← pipeRead q count []
          .ret ({ k with pipe := Function.update k.pipe p (some q) }, overlay bytes buf,
            if bytes = [] ∧ q.writeRef > 0 then -35 else int32 bytes.length)
  | .node =>
      match x.node with
      | none => .ret (k, buf, -1)
      | some n => do
          let (bytes, r) ← vfsRead k.vfs n x.offset count
          let offset := if r > 0 then u32 (x.offset + r.toNat) else x.offset
          .ret (k.setFile f { x with offset := offset }, overlay bytes buf, r)

/-- A write to a descriptor taken for `kind`. -/
def writeAs (k : Kernel) (f : Nat) (x : File) (buf : List UInt8) : Kind → Exec (Kernel × Int)
  | .console => .ret ({ k with con := consoleWrite k.con buf }, int32 buf.length)
  | .socket =>
      match x.sock with
      | .slot i =>
          let (net, r) := sockSendto k.net i buf 0 0
          .ret ({ k with net := net }, r)
      | _ => .undefined
  | .pipe =>
      match x.pipe.bind fun p => (k.pipe p).map (p, ·) with
      | none => .undefined
      | some (p, q) => do
          let (q, written) ← pipeWrite q buf 0
          .ret ({ k with pipe := Function.update k.pipe p (some q) },
            if written = 0 ∧ buf.length > 0 then -35 else int32 written)
  | .node =>
      match x.node with
      | none => .ret (k, -1)
      | some n => do
          let offset ← writeOffset k.vfs n x
          let (v, written) ← vfsWrite k.vfs n offset buf
          let offset := if written > 0 then u32 (offset + written.toNat) else offset
          .ret ({ k with vfs := v }.setFile f { x with offset := offset }, written)

/-- The events of a descriptor taken for `kind`. -/
def pollAs (k : Kernel) (x : File) (events : Nat) : Kind → Exec Nat
  | .console => .ret (ready events (k.con.typed.length > 0) true)
  | .socket =>
      match x.sock with
      | .slot i => .ret (sockPoll (k.net.slot i) events)
      | _ => .undefined
  | .pipe =>
      match x.pipe.bind k.pipe with
      | none => .undefined
      | some q => .ret (ready events (q.ring.count > 0) (q.ring.count < pipeSize))
  | .node => .ret (ready events true true)

section Calls

variable {k : Kernel} {t fd : Nat} (d : Descriptor k t fd)

/-- `is_console_fd` -/
theorem Descriptor.isConsoleFd_eq : isConsoleFd k t fd =
    .ret (decide (d.file.pipe = none ∧ (d.file.node = none ∨ d.tty = true))) := by
  rw [isConsoleFd, d.installed]
  show (k.load d.addr >>= _) = _
  rw [load_eq_ret.mpr d.loaded, Exec.ret_bind]
  cases hp : d.file.pipe with
  | some p => rfl
  | none =>
      cases hn : d.file.node with
      | none => rfl
      | some n =>
          obtain ⟨m, hm, hpath⟩ := d.named n hn
          simp [vfsIsTty, Vfs.load, hm, Descriptor.tty, hpath]

theorem fileRead_behind (hx : ¬d.file.bare) (buf : Nat → UInt8) (count : Nat) :
    (do let (k, bytes, r) ← fileRead k d.addr d.file count; .ret (k, overlay bytes buf, r)) =
      readAs k d.addr d.file buf count d.file.behind := by
  generalize d.file = x at hx
  cases hs : x.sock with
  | slot i => simp [fileRead, readAs, File.behind, hs]
  | wild => simp [fileRead, readAs, File.behind, hs]
  | null =>
      cases hp : x.pipe with
      | some p =>
          cases hq : k.pipe p with
          | none => simp [fileRead, readAs, File.behind, hs, hp, hq]
          | some q => simp [fileRead, readAs, File.behind, hs, hp, hq, Exec.bind_assoc]
      | none =>
          cases hn : x.node with
          | none => simp [File.bare, hs, hp, hn] at hx
          | some n => simp [fileRead, readAs, File.behind, hs, hp, hn, Exec.bind_assoc]

theorem fileWrite_behind (hx : ¬d.file.bare) (buf : List UInt8) :
    fileWrite k d.addr d.file buf = writeAs k d.addr d.file buf d.file.behind := by
  generalize d.file = x at hx
  cases hs : x.sock with
  | slot i => simp [fileWrite, writeAs, File.behind, hs]
  | wild => simp [fileWrite, writeAs, File.behind, hs]
  | null =>
      cases hp : x.pipe with
      | some p =>
          cases hq : k.pipe p with
          | none => simp [fileWrite, writeAs, File.behind, hs, hp, hq]
          | some q => simp [fileWrite, writeAs, File.behind, hs, hp, hq]
      | none =>
          cases hn : x.node with
          | none => simp [File.bare, hs, hp, hn] at hx
          | some n => simp [fileWrite, writeAs, File.behind, hs, hp, hn]

/-- `sys_read` goes by `readKind`. -/
theorem sysRead_kind (hfd : 3 ≤ fd) (buf : Nat → UInt8) {count : Nat} (hcount : 0 < count) :
    sysRead k t fd true buf count = readAs k d.addr d.file buf count d.readKind := by
  have hzero : ¬fd = 0 := by omega
  have hpos : ¬count = 0 := by omega
  unfold sysRead readsConsole
  rw [if_neg (by simp [hpos]), if_neg hzero, d.isConsoleFd_eq, Exec.ret_bind]
  unfold Descriptor.readKind
  by_cases hcon : d.file.pipe = none ∧ (d.file.node = none ∨ d.tty = true)
  · simp [hcon, readAs]
  · have hbare : ¬d.file.bare := by
      intro hb
      simp only [File.bare, decide_eq_true_eq] at hb
      exact hcon ⟨hb.2.1, .inl hb.1⟩
    rw [if_neg hcon, ← fileRead_behind d hbare]
    simp [hcon, d.installed, load_eq_ret.mpr d.loaded]

/-- `sys_write` goes by `bareKind`. -/
theorem sysWrite_kind (hfd : 3 ≤ fd) (buf : List UInt8) :
    sysWrite k t fd (some buf) = writeAs k d.addr d.file buf d.bareKind := by
  have hstd : ¬(fd = 1 ∨ fd = 2) := by omega
  have hload := load_eq_ret.mpr d.loaded
  unfold sysWrite writesConsole
  simp only [if_neg hstd, d.installed, hload, Exec.ret_bind]
  unfold Descriptor.bareKind
  by_cases hbare : d.file.bare = true
  · rw [if_pos hbare, if_pos hbare]
    rfl
  · rw [if_neg hbare, if_neg hbare, ← fileWrite_behind d hbare]

theorem filePoll_behind (hx : ¬d.file.bare) (events : Nat) :
    filePoll k d.file events = pollAs k d.file events d.file.behind := by
  unfold filePoll
  rw [if_neg hx]
  generalize d.file = x at hx
  cases hs : x.sock with
  | slot i => simp [pollAs, File.behind, hs]
  | wild => simp [pollAs, File.behind, hs]
  | null =>
      cases hp : x.pipe with
      | some p => cases hq : k.pipe p <;> simp [pollAs, File.behind, hs, hp, hq]
      | none => simp [pollAs, File.behind, hs, hp]

/-- `sys_poll` goes by `bareKind`. -/
theorem pollFd_kind (p : PollFd) (hp : p.fd = fd) : pollFd k t p =
    (do let rev ← pollAs k d.file p.events d.bareKind; .ret { p with revents := rev }) := by
  have hload := load_eq_ret.mpr d.loaded
  have hneg : ¬p.fd < 0 := by omega
  unfold pollFd
  rw [if_neg hneg, hp, Int.toNat_natCast, d.installed]
  simp only [hload, Exec.ret_bind]
  unfold Descriptor.bareKind
  by_cases hbare : d.file.bare = true
  · rw [if_pos hbare, filePoll, if_pos hbare]
    rfl
  · rw [if_neg hbare, filePoll_behind d hbare]

/-- The dispatch of `sys_ioctl`, without its reads of memory. -/
theorem ioctlRoute_eq (request : Nat) (valid : Bool) : ioctlRoute k t fd request valid =
    .ret (if d.fb0 then .framebuffer
      else if request = fionbio then nonblockRoute d.file valid
      else if d.file.sock ≠ .null then .interfaces
      else if d.file.pipe = none ∧ (d.file.node = none ∨ d.tty) then .terminal
      else .refused) := by
  have hfb : d.file.isFb0 k.vfs = .ret d.fb0 := by
    unfold File.isFb0 Descriptor.fb0
    cases hn : d.file.node with
    | none => simp [d.unnamed hn]
    | some n =>
        obtain ⟨m, hm, hpath⟩ := d.named n hn
        simp [vfsIsFb0, Vfs.load, hm, hpath]
  unfold ioctlRoute
  simp only [d.installed, load_eq_ret.mpr d.loaded, Exec.ret_bind, hfb, d.isConsoleFd_eq]
  split_ifs <;> simp_all

end Calls

/-! ## When they agree -/

/-- Requests of `sys_ioctl` are passed on to an object of this kind or are
refused; only a node may refuse them all. -/
def IoctlSees (k : Kernel) (t fd : Nat) (kind : Kind) : Prop :=
  (∀ request valid r kind', ioctlRoute k t fd request valid = .ret r → r.kind = some kind' →
      kind' = kind) ∧
    (kind ≠ .node → ∃ request valid r, ioctlRoute k t fd request valid = .ret r ∧
      r.kind = some kind)

/-- The four calls take the descriptor for the same kind of object. -/
structure KindsAgree {k : Kernel} {t fd : Nat} (d : Descriptor k t fd) : Prop where
  write_poll : d.bareKind = d.readKind
  ioctl : IoctlSees k t fd d.readKind

/-- The descriptor is not a terminal opened by its path, not a socket with
neither node nor pipe, and not the framebuffer with a pipe or a socket
besides. -/
structure PlainKind {k : Kernel} {t fd : Nat} (d : Descriptor k t fd) : Prop where
  terminal : ¬(d.file.pipe = none ∧ d.tty)
  socket : ¬(d.file.pipe = none ∧ d.file.node = none ∧ d.file.sock ≠ .null)
  framebuffer : ¬(d.fb0 ∧ (d.file.pipe ≠ none ∨ d.file.sock ≠ .null))

namespace Descriptor

variable {k : Kernel} {t fd : Nat} (d : Descriptor k t fd)

/-- `sys_ioctl` -/
def ioctlKind : Kind :=
  if d.fb0 then .node
  else if d.file.sock ≠ .null then .socket
  else if d.file.pipe ≠ none then .pipe
  else if d.file.node = none ∨ d.tty then .console
  else .node

/-- A request that is passed on goes to what `sys_ioctl` takes the
descriptor for. -/
theorem route_kind {request : Nat} {valid : Bool} {r : Route} {kind : Kind}
    (h : ioctlRoute k t fd request valid = .ret r) (hr : r.kind = some kind) :
    kind = d.ioctlKind := by
  rw [ioctlRoute_eq d, Exec.ret.injEq] at h
  unfold ioctlKind
  split at h
  · rename_i hfb
    rw [if_pos hfb]
    cases h
    cases hr
    rfl
  rename_i hfb
  rw [if_neg hfb]
  by_cases hsock : d.file.sock = .null
  · by_cases hpipe : d.file.pipe = none
    · by_cases hnode : d.file.node = none ∨ d.tty = true
      · by_cases hreq : request = fionbio <;> subst h <;>
          simp_all [nonblockRoute, Route.kind]
      · by_cases hreq : request = fionbio <;> subst h <;>
          simp_all [nonblockRoute, Route.kind]
    · by_cases hreq : request = fionbio <;> cases valid <;> subst h <;>
        simp_all [nonblockRoute, Route.kind]
  · by_cases hreq : request = fionbio <;> cases valid <;> subst h <;>
      simp_all [nonblockRoute, Route.kind]

/-- Some request is passed on, unless it is a node. -/
theorem exists_route (hnode : d.ioctlKind ≠ .node) : ∃ request valid r,
    ioctlRoute k t fd request valid = .ret r ∧ r.kind = some d.ioctlKind := by
  refine ⟨if d.file.sock = .null ∧ d.file.pipe = none then 0x5401 else fionbio, true, _,
    ioctlRoute_eq d _ _, ?_⟩
  unfold ioctlKind at hnode ⊢
  by_cases hfb : d.fb0 = true <;> by_cases hsock : d.file.sock = .null <;>
    by_cases hpipe : d.file.pipe = none <;> by_cases hnode : d.file.node = none ∨ d.tty = true <;>
    simp_all [nonblockRoute, Route.kind, fionbio]

theorem ioctlSees_iff {kind : Kind} : IoctlSees k t fd kind ↔ kind = d.ioctlKind := by
  constructor
  · rintro ⟨honly, hsome⟩
    by_cases hkind : kind = .node
    · by_contra hne
      obtain ⟨request, valid, r, hr, hrk⟩ := d.exists_route fun hn => hne (hkind.trans hn.symm)
      exact hne (honly request valid r _ hr hrk).symm
    · obtain ⟨request, valid, r, hr, hrk⟩ := hsome hkind
      exact d.route_kind hr hrk
  · rintro rfl
    exact ⟨fun _ _ _ _ h hr => d.route_kind h hr, d.exists_route⟩

end Descriptor

/-- `sys_read`, `sys_write` and `sys_poll` each go by their kind, and these
and that of `sys_ioctl` are the same exactly for the descriptors of
`PlainKind`. -/
theorem kinds_agree_iff {k : Kernel} {t fd : Nat} (d : Descriptor k t fd) (hfd : 3 ≤ fd) :
    (∀ buf count, 0 < count →
      sysRead k t fd true buf count = readAs k d.addr d.file buf count d.readKind) ∧
    (∀ buf, sysWrite k t fd (some buf) = writeAs k d.addr d.file buf d.bareKind) ∧
    (∀ p : PollFd, p.fd = fd → pollFd k t p =
      (do let rev ← pollAs k d.file p.events d.bareKind; .ret { p with revents := rev })) ∧
    (KindsAgree d ↔ PlainKind d) := by
  refine ⟨fun buf _ hcount => sysRead_kind d hfd buf hcount, fun buf => sysWrite_kind d hfd buf,
    fun p hp => pollFd_kind d p hp, ?_⟩
  have hiff : KindsAgree d ↔ d.bareKind = d.readKind ∧ d.readKind = d.ioctlKind :=
    ⟨fun h => ⟨h.write_poll, d.ioctlSees_iff.mp h.ioctl⟩,
      fun h => ⟨h.1, d.ioctlSees_iff.mpr h.2⟩⟩
  have hplain : PlainKind d ↔ ¬(d.file.pipe = none ∧ d.tty = true) ∧
      ¬(d.file.pipe = none ∧ d.file.node = none ∧ d.file.sock ≠ .null) ∧
      ¬(d.fb0 = true ∧ (d.file.pipe ≠ none ∨ d.file.sock ≠ .null)) :=
    ⟨fun h => ⟨h.terminal, h.socket, h.framebuffer⟩, fun h => ⟨h.1, h.2.1, h.2.2⟩⟩
  have hdisjoint : d.tty = true → d.fb0 = false := by
    unfold Descriptor.tty Descriptor.fb0
    rw [decide_eq_true_eq, decide_eq_false_iff_not]
    rintro (h | h) <;> rw [h] <;> decide
  have hunnamed : d.file.node = none → d.tty = false ∧ d.fb0 = false := by
    intro hn
    simp [Descriptor.tty, Descriptor.fb0, d.unnamed hn]
  rw [hiff, hplain]
  unfold Descriptor.bareKind Descriptor.readKind Descriptor.ioctlKind File.behind File.bare
  cases htty : d.tty <;> cases hfb : d.fb0 <;> by_cases hsock : d.file.sock = .null <;>
    by_cases hpipe : d.file.pipe = none <;> by_cases hnode : d.file.node = none <;>
    simp_all

/-- A regular file that a task has opened is a node for all four. -/
theorem kinds_of_regular_file : ∃ (k : Kernel) (d : Descriptor k 1 3),
    d.readKind = .node ∧ KindsAgree d := by
  obtain ⟨k, -, hfd, hfile, hnode⟩ : ∃ k, runAll quietKernel
      [.spawn fun _ => .null, .openPath 1 rootCaller (str "/a") 64 .null] = .ret k ∧
      k.fdAt 1 3 = some 6 ∧ k.file 6 = some ⟨some 5, 0, 64, 1, none, 0, .null⟩ ∧
      (k.vfs.node 5).map (fun m => m.path) = some (str "/a") := ⟨_, rfl, rfl, rfl, rfl⟩
  let d : Descriptor k 1 3 :=
    { addr := 6, file := _, path := some (str "/a"), installed := hfd, loaded := hfile
      named := by
        rintro n hn
        cases hn
        obtain ⟨m, hm, hpath⟩ := Option.map_eq_some_iff.mp hnode
        exact ⟨m, hm, by rw [hpath]⟩
      unnamed := nofun }
  have htty : d.tty = false := by
    show decide (some (str "/a") = some devTty ∨ some (str "/a") = some devConsole) = false
    decide
  have hfb : d.fb0 = false := by
    show decide (some (str "/a") = some devFb0) = false
    decide
  refine ⟨k, d, ?_, (kinds_agree_iff d (by decide)).2.2.2.mpr ⟨?_, ?_, ?_⟩⟩
  · unfold Descriptor.readKind
    rw [htty]
    rfl
  · rw [htty]
    nofun
  · exact fun h => nomatch h.2.1
  · rw [hfb]
    nofun

/-- A socket is read from the keyboard. -/
theorem socket_read_as_console :
    ¬∀ (k : Kernel) (t fd : Nat) (d : Descriptor k t fd), 3 ≤ fd → KindsAgree d := by
  intro hall
  obtain ⟨k, -, hfd, hfile⟩ : ∃ k, runAll quietKernel
      [.spawn fun _ => .null, .socket 1 2 1 0] = .ret k ∧ k.fdAt 1 3 = some 5 ∧
      k.file 5 = some ⟨none, 0, 0, 1, none, 0, .slot 0⟩ := ⟨_, rfl, rfl, rfl⟩
  let d : Descriptor k 1 3 :=
    { addr := 5, file := _, path := none, installed := hfd, loaded := hfile, named := nofun
      unnamed := fun _ => rfl }
  have hsame := (hall k 1 3 d (by decide)).write_poll
  cases hsame

end LiteBSD.Files
