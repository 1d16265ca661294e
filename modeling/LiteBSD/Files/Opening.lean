/-
# `LiteBSD.Files.Opening` — what `sys_open` opens, and what it creates

`sys_open` asks `vfs_stat` whether the path exists, and `vfs_open` then looks it
up again.  `vfs_stat` asks where the links at the path lead; `vfs_open` creates
a file where there is no node at the path itself.  Where the links lead nowhere
the two part (`Dangling`):

    at the resolved path | `vfs_stat` | `vfs_open` with `O_CREAT`
    nothing              | -1         | a new node
    a node or a chain    | its end    | its end
    too many links       | -1         | `NULL`
    a dangling link      | -1         | the node of the link

In the last case `O_EXCL` refuses nothing and the caller gets a descriptor for
the link (`exclusive_creates_iff`).
-/
import LiteBSD.Files.Moves
import LiteBSD.Vfs.Transparent
import LiteBSD.Vfs.FailedWrite

namespace LiteBSD

/-- A link whose chain ends at a path with no node. -/
def Dangling (v : Vfs) (resolved : CStr) : Prop :=
  ∃ a n q, findNode v resolved = some a ∧ v.node a = some n ∧ isSymlinkNode n = true ∧
    followSymlinks v resolved = .ret (some q) ∧ findNode v q = none

/-- `vfs_open` gets as far as to make a node. -/
structure Creates (v : Vfs) (c : Caller) (path : CStr) (flags : Nat) : Prop where
  creat : oCreat flags = true
  real : synthLookup c.pids (c.resolve path) = none
  absent : findNode v (c.resolve path) = none
  length : lengthOk (c.resolve path) = true
  block : v.mem.outcome v.nextObj = .block

/-- What `vfs_open` does, by what it finds at the path. -/
inductive OpenedAt (v : Vfs) (c : Caller) (path : CStr) (flags : Nat) : Vfs → Option Nat → Prop
  | failed {v' : Vfs} : ¬Creates v c path flags →
      (synthLookup c.pids (c.resolve path) = none → ∀ a, destination v (c.resolve path) ≠ .ret (some a)) →
      Untouched v v' → OpenedAt v c path flags v' none
  | entry {v' : Vfs} {sid : SynthId} {a : Nat} : oCreat flags = false →
      synthLookup c.pids (c.resolve path) = some sid → synthOpen v c (c.resolve path) sid = .ret (v', some a) →
      OpenedAt v c path flags v' (some a)
  | node {a : Nat} {n : Node} : synthLookup c.pids (c.resolve path) = none →
      findNode v (c.resolve path) ≠ none → destination v (c.resolve path) = .ret (some a) → v.node a = some n →
      OpenedAt v c path flags (v.setNode a { n with refs := n.refs + 1 }) (some a)
  | link {a : Nat} {n : Node} : synthLookup c.pids (c.resolve path) = none →
      Dangling v (c.resolve path) → findNode v (c.resolve path) = some a → v.node a = some n →
      isSymlinkNode n = true → OpenedAt v c path flags (v.setNode a { n with refs := n.refs + 1 }) (some a)
  | created : Creates v c path flags → OpenedAt v c path flags
      (linkIn { v with nextObj := v.nextObj + 1 } v.nextObj (freshNode (c.resolve path) sIfreg)) (some v.nextObj)

section Opened

variable {v v' : Vfs} {c : Caller} {path resolved : CStr} {flags a : Nat} {n : Node} {p : Option Nat}

/-- Nothing can be told from `vfs_stat` about a dangling link. -/
theorem Dangling.destination (h : Dangling v resolved) : destination v resolved = .ret none := by
  obtain ⟨a, n, q, -, -, -, hq, hnone⟩ := h
  rw [LiteBSD.destination, hq, Exec.ret_bind, Option.bind_some, hnone]

/-- `vfs_open` settles on the end of the links, or on a dangling link. -/
theorem openTarget_ends (ha : findNode v resolved = some a) (h : openTarget v resolved flags a = .ret p) :
    destination v resolved = .ret p ∨
      oCreat flags = true ∧ p = some a ∧ Dangling v resolved ∧
        ∃ n, v.node a = some n ∧ isSymlinkNode n = true := by
  have hzero := openTarget_eq ha
  obtain ⟨n, hn, h⟩ := Exec.bind_eq_ret.mp h
  rw [← hzero, openTarget, hn, Exec.ret_bind]
  split at h
  · rename_i hlink
    cases h
    exact .inl (if_pos hlink)
  · rename_i hlink
    have hlink' : isSymlinkNode n = true := by simpa using hlink
    rw [if_neg hlink]
    obtain ⟨followed, hf, h⟩ := Exec.bind_eq_ret.mp h
    rw [hf, Exec.ret_bind]
    cases followed with
    | none => exact .inl h
    | some q =>
        dsimp only at h ⊢
        cases hq : findNode v q with
        | some t =>
            rw [hq] at h
            exact .inl h
        | none =>
            rw [hq] at h
            dsimp only at h
            split at h
            · rename_i hcreat
              cases h
              have hlive := Vfs.load_ret hn
              exact .inr ⟨hcreat, rfl, ⟨a, n, q, ha, hlive, hlink', hf, hq⟩, n, hlive, hlink'⟩
            · cases h
              exact .inl rfl

theorem vfsOpen_cases (h : vfsOpen v c path flags = .ret (v', p)) : OpenedAt v c path flags v' p := by
  unfold vfsOpen at h
  dsimp only at h
  split at h
  · rename_i sid hs
    have hno : ¬Creates v c path flags := fun hc => by
      rw [hc.real] at hs
      cases hs
    have hentry : synthLookup c.pids (c.resolve path) = none →
        ∀ a, destination v (c.resolve path) ≠ .ret (some a) :=
      fun hnone => by
        rw [hs] at hnone
        cases hnone
    split at h
    · cases h
      exact .failed hno hentry (.refl _)
    · rename_i hcreat
      cases p with
      | some a => exact .entry (eq_false_of_ne_true hcreat) hs h
      | none =>
          cases (show OpenEffect _ _ none _ from synthOpen_effect h) with
          | failed hu => exact .failed hno hentry hu
  · rename_i hs
    split at h
    · rename_i a ha
      have hno : ¬Creates v c path flags := fun hc => by
        rw [hc.absent] at ha
        cases ha
      obtain ⟨target, ht, h⟩ := Exec.bind_eq_ret.mp h
      have hends := openTarget_ends ha ht
      cases target with
      | none =>
          cases h
          rcases hends with hdest | ⟨-, hp, -⟩
          · refine .failed hno (fun _ b hb => ?_) (.refl _)
            rw [hdest] at hb
            cases hb
          · cases hp
      | some t =>
          obtain ⟨n, hn, h⟩ := Exec.bind_eq_ret.mp h
          cases h
          have hn := Vfs.load_ret hn
          rcases hends with hdest | ⟨-, ht, hdang, m, hm, hlink⟩
          · exact .node hs (by rw [ha]; exact Option.some_ne_none a) hdest hn
          · cases ht
            rw [hn, Option.some.injEq] at hm
            exact .link hs hdang ha hn (hm ▸ hlink)
    · rename_i habs
      have hnowhere : synthLookup c.pids (c.resolve path) = none →
          ∀ a, destination v (c.resolve path) ≠ .ret (some a) := fun _ b hb => by
        rw [destination_none habs] at hb
        cases hb
      split at h
      · rename_i hcreat
        unfold openCreate at h
        split at h
        · rename_i hlen
          obtain ⟨⟨w, q⟩, hw, h⟩ := Exec.bind_eq_ret.mp h
          cases q with
          | none =>
              cases h
              refine .failed (fun hc => ?_) hnowhere (.kmalloc hw)
              rw [kmalloc_ok hc.block (by decide) (by decide)] at hw
              cases hw
          | some a =>
              cases h
              obtain ⟨hblock, rfl, rfl⟩ := kmalloc_some hw
              exact .created ⟨hcreat, hs, habs, hlen, hblock⟩
        · rename_i hlen
          cases h
          exact .failed (fun hc => hlen hc.length) hnowhere (.refl _)
      · rename_i hcreat
        cases h
        exact .failed (fun hc => hcreat hc.creat) hnowhere (.refl _)

/-- A path that `vfs_stat` finds nothing at is that of a new node or of a
dangling link. -/
theorem OpenedAt.of_absent (h : OpenedAt v c path flags v' (some a)) (hstat : vfsStat v c path = .ret none)
    (hcreat : oCreat flags = true) : Creates v c path flags ∨ Dangling v (c.resolve path) := by
  cases h with
  | entry hno => rw [hcreat] at hno; cases hno
  | node hs _ hdest hn =>
      rw [vfsStat_real hs, hdest, Exec.ret_bind, statNode, Vfs.load_live hn] at hstat
      cases hstat
  | link _ hdang => exact .inr hdang
  | created hc => exact .inl hc

end Opened

end LiteBSD

namespace LiteBSD.Files

open Lib

/-- The node behind a descriptor. -/
def nodeAt (k : Kernel) (t fd : Nat) : Option Nat := ((k.fdAt t fd).bind k.file).bind File.node

/-- The descriptor is for a new and empty regular file, at a path where there
was nothing. -/
structure NewFile (k k' : Kernel) (c : Caller) (t fd : Nat) (resolved : CStr) : Prop where
  real : synthLookup c.pids resolved = none
  absent : findNode k.vfs resolved = none
  made : ∃ a n, nodeAt k' t fd = some a ∧ k.vfs.node a = none ∧ k'.vfs.node a = some n ∧
    n.path = resolved ∧ n.mode = sIfreg ∧ n.size = 0 ∧ findNode k'.vfs resolved = some a

/-- The descriptor is for a node that is no link. -/
def PastLinks (k : Kernel) (t fd : Nat) : Prop :=
  ∃ a n, nodeAt k t fd = some a ∧ k.vfs.node a = some n ∧ isSymlinkNode n = false

section Opened

variable {k k' : Kernel} {t fd n flags : Nat} {c : Caller} {path : CStr} {stale : SockPtr} {ret : Int}

/-- The file that `sys_open` makes. -/
def openedFile (n offset flags : Nat) (stale : SockPtr) : File :=
  { node := some n, offset := offset, flags := flags, refCount := 1, pipe := none, pipeEnd := 0, sock := stale }

/-- The kernel with one address fewer in supply. -/
def drawn (k : Kernel) : Kernel := { k with vfs := { k.vfs with nextObj := k.vfs.nextObj + 1 } }

theorem kmalloc_file {p : Option Nat} (h : k.kmalloc fileSize = .ret (k', p)) :
    k' = drawn k ∧ (p = some k.vfs.nextObj ∨ p = none) := by
  obtain ⟨⟨v, q⟩, hv, h⟩ := Exec.bind_eq_ret.mp h
  cases h
  obtain ⟨rfl, hp⟩ := kmalloc_small (by decide) (by decide) hv
  exact ⟨rfl, hp.imp And.left And.left⟩

/-- The node gets a file and a slot, or is closed again. -/
theorem openNode_cases (h : openNode k t n flags stale = .ret (k', ret)) :
    (∃ (i : Fin maxFds) (offset : Nat), ret = i.val ∧
      k' = ((drawn k).putFile k.vfs.nextObj (.node n) (openedFile n offset flags stale)).setFd t i
        (some k.vfs.nextObj)) ∨
    ret = -1 ∧ ∃ u r, vfsClose (drawn k).vfs n = .ret (u, r) ∧ (k' = { drawn k with vfs := u } ∨
      ∃ offset, k' = { (drawn k).putFile k.vfs.nextObj (.node n) (openedFile n offset flags stale) with
        vfs := u }.freeFile k.vfs.nextObj (.node n)) := by
  obtain ⟨⟨k₁, p⟩, hk, h⟩ := Exec.bind_eq_ret.mp h
  obtain ⟨rfl, hp⟩ := kmalloc_file hk
  rcases hp with rfl | rfl
  · obtain ⟨offset, -, h⟩ := Exec.bind_eq_ret.mp h
    dsimp only at h
    unfold allocFd at h
    cases hfree : freeFd ((drawn k).putFile k.vfs.nextObj (.node n) (openedFile n offset flags stale)) t with
    | some i =>
        unfold openedFile at hfree
        rw [hfree] at h
        cases h
        exact .inl ⟨i, offset, rfl, rfl⟩
    | none =>
        unfold openedFile at hfree
        rw [hfree] at h
        obtain ⟨⟨u, r⟩, hu, h⟩ := Exec.bind_eq_ret.mp h
        cases h
        exact .inr ⟨rfl, u, r, hu, .inr ⟨offset, rfl⟩⟩
  · obtain ⟨⟨u, r⟩, hu, h⟩ := Exec.bind_eq_ret.mp h
    cases h
    exact .inr ⟨rfl, u, r, hu, .inl rfl⟩

/-- `sys_open` is refused, finds no node, or goes on with the one it found. -/
theorem sysOpen_cases (h : sysOpen k t c path flags stale = .ret (k', ret)) :
    exclRefuses k c path flags = .ret true ∧ k' = k ∧ ret = -1 ∨
    exclRefuses k c path flags = .ret false ∧ ∃ v p, vfsOpen k.vfs c path flags = .ret (v, p) ∧
      (p = none ∧ k' = { k with vfs := v } ∧ ret = -1 ∨
        ∃ n w, p = some n ∧ truncOnOpen v n flags = .ret w ∧
          openNode { k with vfs := w } t n flags stale = .ret (k', ret)) := by
  obtain ⟨refused, hrefused, h⟩ := Exec.bind_eq_ret.mp h
  cases refused with
  | true =>
      cases h
      exact .inl ⟨hrefused, rfl, rfl⟩
  | false =>
      obtain ⟨⟨v, p⟩, hv, h⟩ := Exec.bind_eq_ret.mp h
      refine .inr ⟨hrefused, v, p, hv, ?_⟩
      cases p with
      | none =>
          cases h
          exact .inl ⟨rfl, rfl, rfl⟩
      | some n =>
          obtain ⟨w, hw, h⟩ := Exec.bind_eq_ret.mp h
          exact .inr ⟨n, w, rfl, hw, h⟩

/-- What `O_EXCL` does not refuse, `vfs_stat` has not found. -/
theorem exclRefuses_false (hcreat : oCreat flags = true) (hexcl : oExcl flags = true)
    (h : exclRefuses k c path flags = .ret false) : vfsStat k.vfs c path = .ret none := by
  rw [exclRefuses, if_pos ⟨hcreat, hexcl⟩] at h
  obtain ⟨st, hst, h⟩ := Exec.bind_eq_ret.mp h
  cases st with
  | none => exact hst
  | some st => cases h

theorem truncOnOpen_names {v w : Vfs} (h : truncOnOpen v n flags = .ret w) : SameNames v w := by
  unfold truncOnOpen at h
  split at h
  · obtain ⟨⟨u, r⟩, hu, h⟩ := Exec.bind_eq_ret.mp h
    cases h
    exact .of_vfsTruncate hu
  · cases h
    exact .refl _

/-- There is nothing in a new file to take away. -/
theorem truncOnOpen_empty {v w : Vfs} {m : Node} (hm : v.node n = some m) (hg : Growable m)
    (hrefs : m.dataRefs = none) (hsize : m.size = 0) (h : truncOnOpen v n flags = .ret w) : w = v := by
  have hkind : ¬(m.dirBit ∨ isSymlinkNode m) := by
    rw [hg.file, hg.text]
    exact not_or.mpr ⟨Bool.false_ne_true, Bool.false_ne_true⟩
  have hcow : dataCow v n = .ret (v, 0) := by
    rw [dataCow, Vfs.load_live hm, Exec.ret_bind, hrefs]
  unfold truncOnOpen at h
  split at h
  · obtain ⟨⟨u, r⟩, hu, h⟩ := Exec.bind_eq_ret.mp h
    cases h
    rw [vfsTruncate, Vfs.load_live hm, Exec.ret_bind, if_neg hkind, if_neg (ne_true_of_eq_false hg.real), hcow] at hu
    simp only [Exec.ret_bind, ne_eq, not_true_eq_false, if_false, Vfs.load_live hm, hsize, Nat.lt_irrefl, if_true] at hu
    cases hu
    rfl
  · cases h
    rfl

/-- A call that returns a descriptor has opened the node for it. -/
theorem sysOpen_opened (h : sysOpen k t c path flags stale = .ret (k', (fd : Int))) :
    exclRefuses k c path flags = .ret false ∧ ∃ v n w, vfsOpen k.vfs c path flags = .ret (v, some n) ∧
      truncOnOpen v n flags = .ret w ∧ nodeAt k' t fd = some n ∧ k'.vfs = { w with nextObj := w.nextObj + 1 } := by
  have hfd : (fd : Int) ≠ -1 := by omega
  rcases sysOpen_cases h with ⟨-, -, hret⟩ | ⟨hrefused, v, p, hv, ⟨-, -, hret⟩ | ⟨n, w, rfl, hw, hopen⟩⟩
  · exact absurd hret hfd
  · exact absurd hret hfd
  · rcases openNode_cases hopen with ⟨i, offset, hret, rfl⟩ | ⟨hret, -⟩
    · refine ⟨hrefused, v, n, w, hv, hw, ?_, rfl⟩
      obtain rfl : fd = i.val := by omega
      simp [nodeAt, Kernel.fdAt, Kernel.setFd, Kernel.putFile, Kernel.setFile, openedFile]
    · exact absurd hret hfd

end Opened

/-- Every state that is reached has its nodes in order. -/
theorem nodes_of_reach {k : Kernel} (h : fdSystem.Reach k) : NodeTable k.vfs :=
  (reachVia_moves (I := fun _ => True) (fun _ _ => trivial) (fun _ _ _ _ _ _ _ _ _ _ => trivial) h).1.nodes

/-! ## Exclusive creation -/

section Exclusive

variable {k k' : Kernel} {t fd flags : Nat} {c : Caller} {path : CStr} {stale : SockPtr}

theorem growable_fresh (resolved : CStr) (ino : Nat) : Growable { freshNode resolved sIfreg with ino := ino } where
  file := (by decide : decide (sIfreg &&& sIfdir ≠ 0) = false)
  text := (by decide : decide (sIfreg &&& 0xF000 = sIflnk) = false)
  real := rfl

/-- A node that was made is opened as it is. -/
theorem newFile_of_creates (ht : NodeTable k.vfs) (hc : Creates k.vfs c path flags)
    (h : sysOpen k t c path flags stale = .ret (k', (fd : Int))) :
    NewFile k k' c t fd (c.resolve path) ∧ PastLinks k' t fd := by
  obtain ⟨-, v, n, w, hv, hw, hat, hvfs⟩ := sysOpen_opened h
  have hfresh := ht.fresh _ (Nat.le_refl k.vfs.nextObj)
  cases vfsOpen_cases hv with
  | entry hno =>
      rw [hc.creat] at hno
      cases hno
  | node _ hthere => exact absurd hc.absent hthere
  | link _ _ hthere =>
      rw [hc.absent] at hthere
      cases hthere
  | created =>
      have hnode : (linkIn { k.vfs with nextObj := k.vfs.nextObj + 1 } k.vfs.nextObj
          (freshNode (c.resolve path) sIfreg)).node k.vfs.nextObj =
            some { freshNode (c.resolve path) sIfreg with ino := k.vfs.nextIno } := Function.update_self _ _ _
      have hempty := truncOnOpen_empty hnode (growable_fresh _ _) rfl rfl hw
      subst hempty
      have hnode' : k'.vfs.node k.vfs.nextObj =
          some { freshNode (c.resolve path) sIfreg with ino := k.vfs.nextIno } := by
        rw [hvfs]
        exact hnode
      have hpast : PastLinks k' t fd := ⟨_, _, hat, hnode', (growable_fresh _ _).text⟩
      refine ⟨⟨hc.real, hc.absent, _, _, hat, hfresh, hnode', rfl, rfl, rfl, ?_⟩, hpast⟩
      have hslash : c.resolve path ≠ [slash] := by
        intro hroot
        have habs := hc.absent
        rw [hroot, findNode, if_pos rfl] at habs
        cases habs
      have hhead : k'.vfs.hasPath (c.resolve path) k.vfs.nextObj = true := by
        rw [Vfs.hasPath, hnode']
        exact decide_eq_true rfl
      have hnodes : k'.vfs.nodes = k.vfs.nextObj :: k.vfs.nodes := by rw [hvfs]; rfl
      rw [findNode, if_neg hslash, hnodes, List.find?_cons_of_pos hhead]

/-- The node that was found is what the descriptor is for, and its kind stays. -/
theorem pastLinks_iff {v w : Vfs} {n : Nat} {m : Node} (hm : v.node n = some m) (hw : truncOnOpen v n flags = .ret w)
    (hat : nodeAt k' t fd = some n) (hvfs : k'.vfs = { w with nextObj := w.nextObj + 1 }) :
    PastLinks k' t fd ↔ isSymlinkNode m = false := by
  obtain ⟨m', hm', hlabel⟩ := (truncOnOpen_names hw).live hm
  have hkind : isSymlinkNode m' = isSymlinkNode m := by
    unfold isSymlinkNode
    rw [show m'.mode = m.mode from congrArg Label.mode hlabel]
  have hnode : k'.vfs.node n = some m' := by
    rw [hvfs]
    exact hm'
  constructor
  · rintro ⟨a, x, ha, hx, hlink⟩
    rw [hat] at ha
    cases ha
    rw [hnode] at hx
    cases hx
    rw [← hkind, hlink]
  · intro hlink
    exact ⟨n, m', hat, hnode, hkind.trans hlink⟩

end Exclusive

/-- A descriptor for a path opened with `O_CREAT` is past all links, and with
`O_EXCL` it is for a new file, exactly if there is no dangling link at the
path. -/
theorem exclusive_creates_iff {k k' : Kernel} (hreach : fdSystem.Reach k) {t fd flags : Nat} {c : Caller}
    {path : CStr} {stale : SockPtr} (hcreat : oCreat flags = true)
    (h : sysOpen k t c path flags stale = .ret (k', (fd : Int))) :
    ((oExcl flags = true → NewFile k k' c t fd (c.resolve path)) ∧ PastLinks k' t fd) ↔
      ¬Dangling k.vfs (c.resolve path) := by
  have ht := nodes_of_reach hreach
  obtain ⟨hrefused, v, n, w, hv, hw, hat, hvfs⟩ := sysOpen_opened h
  have hopened := vfsOpen_cases hv
  cases hopened with
  | entry hno =>
      rw [hcreat] at hno
      cases hno
  | link _ hdang _ hn hlink =>
      refine ⟨fun ⟨_, hpast⟩ => ?_, fun hno => absurd hdang hno⟩
      rw [pastLinks_iff (Vfs.node_setNode_self _ _ _) hw hat hvfs] at hpast
      exact absurd (hlink.symm.trans hpast) (by decide)
  | created hc =>
      obtain ⟨hnew, hpast⟩ := newFile_of_creates ht hc h
      refine ⟨fun _ => ?_, fun _ => ⟨fun _ => hnew, hpast⟩⟩
      rintro ⟨a, _, _, ha, _⟩
      rw [hc.absent] at ha
      cases ha
  | node hs _ hdest hn =>
      have hno : ¬Dangling k.vfs (c.resolve path) := fun hdang => by
        rw [hdang.destination] at hdest
        cases hdest
      refine ⟨fun _ => hno, fun _ => ⟨fun hexcl => ?_, ?_⟩⟩
      · rcases (vfsOpen_cases hv).of_absent (exclRefuses_false hcreat hexcl hrefused) hcreat with hc | hdang
        · exact (newFile_of_creates ht hc h).1
        · exact absurd hdang hno
      · obtain ⟨followed, hf, hd⟩ := Exec.bind_eq_ret.mp hdest
        rw [Exec.ret.injEq] at hd
        obtain ⟨q, rfl, hq⟩ := Option.bind_eq_some_iff.mp hd
        obtain ⟨m, hm, hkind⟩ := followLoop_end hf hq
        rw [hn, Option.some.injEq] at hm
        subst hm
        exact (pastLinks_iff (Vfs.node_setNode_self _ _ _) hw hat hvfs).mpr hkind

/-- A task, and a link to nowhere. -/
def linkToNowhere : List FdEvent :=
  [.spawn fun _ => .null, .path 1 (.symlink rootCaller (str "/nowhere") (str "/l"))]

/-- A path at which there is nothing. -/
theorem exclusive_new_file : ∃ k k', runAll quietKernel linkToNowhere = .ret k ∧
    sysOpen k 1 rootCaller (str "/n") 0xC0 .null = .ret (k', 3) ∧
    NewFile k k' rootCaller 1 3 (str "/n") ∧ PastLinks k' 1 3 := by
  have hrun : ∃ k, runAll quietKernel linkToNowhere = .ret k ∧ findNode k.vfs (str "/n") = none ∧
      ∃ k', sysOpen k 1 rootCaller (str "/n") 0xC0 .null = .ret (k', 3) := ⟨_, rfl, by decide, _, rfl⟩
  obtain ⟨k, hk, habs, k', hopen⟩ := hrun
  have hreach : fdSystem.Reach k := reach_runAll (.init quietKernel_boot) (fun _ _ _ => trivial) hk
  have hno : ¬Dangling k.vfs (rootCaller.resolve (str "/n")) := by
    rintro ⟨a, _, _, ha, _⟩
    rw [show rootCaller.resolve (str "/n") = str "/n" from rfl, habs] at ha
    cases ha
  have hiff := @exclusive_creates_iff k k' hreach 1 3 0xC0 rootCaller (str "/n") .null rfl hopen
  obtain ⟨hnew, hpast⟩ := hiff.mpr hno
  exact ⟨k, k', hk, hopen, hnew rfl, hpast⟩

/-- The link to nowhere is opened itself. -/
theorem exclusive_open_of_link : ∃ k k', fdSystem.Reach k ∧
    sysOpen k 1 rootCaller (str "/l") 0xC0 .null = .ret (k', 3) ∧
    findNode k.vfs (str "/l") ≠ none ∧ ¬PastLinks k' 1 3 := by
  have hrun : ∃ k, runAll quietKernel linkToNowhere = .ret k ∧ findNode k.vfs (str "/l") ≠ none ∧
      ∃ k' a n, sysOpen k 1 rootCaller (str "/l") 0xC0 .null = .ret (k', 3) ∧ nodeAt k' 1 3 = some a ∧
        k'.vfs.node a = some n ∧ isSymlinkNode n = true :=
    ⟨_, rfl, by decide, _, _, _, rfl, rfl, rfl, by decide⟩
  obtain ⟨k, hk, hthere, k', a, n, hopen, hat, hn, hlink⟩ := hrun
  refine ⟨k, k', reach_runAll (.init quietKernel_boot) (fun _ _ _ => trivial) hk, hopen, hthere, ?_⟩
  rintro ⟨b, m, hb, hm, hno⟩
  rw [hat] at hb
  cases hb
  rw [hn] at hm
  cases hm
  exact absurd (hlink.symm.trans hno) (by decide)

end LiteBSD.Files
