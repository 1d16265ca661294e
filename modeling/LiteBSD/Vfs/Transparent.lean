/-
# `LiteBSD.Vfs.Transparent` — a symlink and what it leads to

`vfs_open`, `vfs_stat`, `vfs_access` and `vfs_chdir` look the resolved path up
among the synthetic entries BEFORE they follow links, and never after: the path
that `follow_symlinks` leaves is looked for in the list of nodes alone.  So a
chain of links is transparent when it ends at a real node, and dead when it
ends at an entry of `/proc` or `/sys`:

    the path of the link | its end      | the calls
    no entry             | no entry     | the same node through both
    no entry             | an entry     | -1, or a node that has the path too
    an entry             | no entry     | the entry; the link is not looked at

`links_transparent_iff` has this for all four calls at once.  The one case left
is that of two names of one entry (`/proc/1` and `/proc/4294967297`), where the
calls agree if there is memory for what `vfs_open` makes.
-/
import LiteBSD.Vfs.Links
import LiteBSD.Vfs.Inodes

namespace LiteBSD

open Lib

/-- What `vfs_chdir` returns, and the directory of the task after it. -/
def vfsChdir (v : Vfs) (c : Caller) (path : CStr) : Exec (Int × CStr) :=
  let resolved := c.resolve path
  match synthLookup c.pids resolved with
  | some sid => .ret (if sid.isDir then (0, resolved.take (pathMax - 1)) else (-1, c.cwd))
  | none => do
      let followed ← followSymlinks v resolved
      match followed with
      | none => .ret (-1, c.cwd)
      | some q =>
          match findNode v q with
          | none => .ret (-1, c.cwd)
          | some a => do
              let n ← v.load a
              .ret (if n.dirBit then (0, q.take (pathMax - 1)) else (-1, c.cwd))

/-- What a resolved path is the path of: an entry, or else a node. -/
def Vfs.objectOfPath (v : Vfs) (pids : List Nat) (resolved : CStr) : Option Object :=
  match synthLookup pids resolved with
  | some sid => some (.entry sid)
  | none => (findNode v resolved).map .node

/-- What a pointer to a node is held for: the node, when it is on the list, and
else the entry at the path that the node was made with. -/
def Vfs.objectOfNode (v : Vfs) (pids : List Nat) (a : Nat) : Option Object :=
  if a = rootAddr ∨ a ∈ v.nodes then some (.node a)
  else (v.node a).bind fun n => (synthLookup pids n.path).map .entry

/-- The four calls succeed with `lpath`, and are about what they are about with
`tpath`. -/
structure Transparent (v : Vfs) (c : Caller) (lpath tpath : CStr) : Prop where
  stat : ∃ st, vfsStat v c lpath = .ret (some st) ∧ vfsStat v c tpath = .ret (some st)
  opened : ∃ v₁ a v₂ b o,
    vfsOpen v c lpath 0 = .ret (v₁, some a) ∧ vfsOpen v c tpath 0 = .ret (v₂, some b) ∧
      v₁.objectOfNode c.pids a = some o ∧ v₂.objectOfNode c.pids b = some o
  access : vfsAccess v c lpath = .ret 0 ∧ vfsAccess v c tpath = .ret 0
  chdir : ∀ st, vfsStat v c tpath = .ret (some st) → st.mode &&& sIfdir ≠ 0 →
    ∃ d e o, vfsChdir v c lpath = .ret (0, d) ∧ vfsChdir v c tpath = .ret (0, e) ∧
      v.objectOfPath c.pids d = some o ∧ v.objectOfPath c.pids e = some o

/-- There is memory for the node and the text of the entry, if the path is that
of one. -/
def EntryRoom (v : Vfs) (c : Caller) (resolved : CStr) : Prop :=
  ∀ sid content, synthLookup c.pids resolved = some sid →
    (if sid.isDir then some [] else c.gen sid) = some content → RoomToOpen v content

/-! ## At an entry -/

section Entry

variable {v v' : Vfs} {c : Caller} {path lpath tpath resolved : CStr} {sid : SynthId} {a size : Nat}

theorem resolve_take (c : Caller) (path : CStr) : (c.resolve path).take (pathMax - 1) = c.resolve path :=
  List.take_of_length_le (vfsResolvePath_length _ _)

theorem kmalloc_some (h : v.kmalloc size = .ret (v', some a)) :
    v.mem.outcome v.nextObj = .block ∧ a = v.nextObj ∧ v' = { v with nextObj := v.nextObj + 1 } := by
  unfold Vfs.kmalloc at h
  split at h
  · cases h
  split at h
  · cases h
  split at h
  · rename_i hblock
    cases h
    exact ⟨hblock, rfl, rfl⟩
  · cases h
  · cases h

/-- What `synth_open` has done when it gives a node. -/
theorem synthOpen_gives (h : synthOpen v c resolved sid = .ret (v', some a)) :
    (a = v.nextObj ∧ v'.nodes = v.nodes ∧ ∃ data len, v'.node a = some (synthNode resolved sid data len)) ∧
      ∀ content, (if sid.isDir then some [] else c.gen sid) = some content → RoomToOpen v content := by
  unfold synthOpen at h
  split at h
  · cases h
  · rename_i content hcontent
    obtain ⟨⟨w, p⟩, hw, h⟩ := Exec.bind_eq_ret.mp h
    cases p with
    | none => cases h
    | some b =>
        obtain ⟨hblock, rfl, rfl⟩ := kmalloc_some hw
        obtain ⟨⟨u, data⟩, hu, h⟩ := Exec.bind_eq_ret.mp h
        dsimp only at h
        split at h
        · cases h
        · rename_i htext
          obtain ⟨y, hy, h⟩ := Exec.bind_eq_ret.mp h
          cases h
          have hnodes : y.nodes = v.nodes := by
            have hyu : y.nodes = u.nodes := by
              rcases Vfs.storeBytes_ret hy with ⟨_, rfl⟩ | ⟨_, _, _, _, _, rfl⟩ <;> rfl
            rcases Vfs.kmallocBuf_ret hu with ⟨_, hun⟩ | ⟨_, rfl⟩
            · exact hyu.trans hun.nodes
            · exact hyu
          refine ⟨⟨rfl, hnodes, data, content.length, Vfs.node_setNode_self _ _ _⟩, fun content' h' => ?_⟩
          rw [hcontent] at h'
          cases h'
          refine ⟨hblock, fun hne => ?_⟩
          -- the second allocation gave the block for the text
          obtain ⟨⟨w', q⟩, hw', hu⟩ := Exec.bind_eq_ret.mp hu
          cases q with
          | none =>
              cases hu
              exact absurd ⟨hne, rfl⟩ htext
          | some b => exact (kmalloc_some hw').1

theorem vfsOpen_entry (hs : synthLookup c.pids (c.resolve path) = some sid) :
    vfsOpen v c path 0 = synthOpen v c (c.resolve path) sid := by
  simp only [vfsOpen, hs]
  rfl

/-- The node of an entry is held for that entry. -/
theorem opened_entry (ht : NodeTable v) (hs : synthLookup c.pids (c.resolve path) = some sid)
    (h : vfsOpen v c path 0 = .ret (v', some a)) : v'.objectOfNode c.pids a = some (.entry sid) := by
  rw [vfsOpen_entry hs] at h
  obtain ⟨⟨rfl, hnodes, data, len, hn⟩, -⟩ := synthOpen_gives h
  have hoff : ¬(v.nextObj = rootAddr ∨ v.nextObj ∈ v'.nodes) := by
    rw [hnodes]
    intro hlisted
    obtain ⟨n, hn⟩ := ht.live hlisted
    rw [ht.fresh _ (Nat.le_refl _)] at hn
    cases hn
  have hpath : (synthNode (c.resolve path) sid data len).path = c.resolve path := resolve_take c path
  rw [Vfs.objectOfNode, if_neg hoff, hn, Option.bind_some, hpath, hs]
  rfl

/-- Two names of one entry. -/
theorem transparent_entry (ht : NodeTable v) (hr : c.Renders)
    (hl : synthLookup c.pids (c.resolve lpath) = some sid) (htp : synthLookup c.pids (c.resolve tpath) = some sid)
    (hroom : EntryRoom v c (c.resolve tpath)) : Transparent v c lpath tpath := by
  obtain ⟨content, hgen, hlen⟩ := hr.text hl
  have hmem := hroom sid content htp hgen
  have hstat : ∀ {path}, synthLookup c.pids (c.resolve path) = some sid →
      vfsStat v c path = .ret (synthStat c sid) := by
    intro path hs
    simp only [vfsStat, hs]
  refine ⟨?_, ?_, ?_, fun st hst hdir => ?_⟩
  · obtain ⟨st, hst, -⟩ := synthStat_ino hr hl
    rw [hstat hl, hstat htp, hst]
    exact ⟨st, rfl, rfl⟩
  · obtain ⟨v₁, a, -, ha, -⟩ := synthOpen_some (c.resolve lpath) hmem hgen hlen
    obtain ⟨v₂, b, -, hb, -⟩ := synthOpen_some (c.resolve tpath) hmem hgen hlen
    rw [← vfsOpen_entry hl] at ha
    rw [← vfsOpen_entry htp] at hb
    exact ⟨v₁, a, v₂, b, _, ha, hb, opened_entry ht hl ha, opened_entry ht htp hb⟩
  · simp only [vfsAccess, hl, htp, and_self]
  · have hd : sid.isDir = true := by
      rw [hstat htp, Exec.ret.injEq, synthStat] at hst
      split at hst
      · assumption
      · obtain ⟨text, -, rfl⟩ := Option.map_eq_some_iff.mp hst
        exact absurd (by decide : sIfreg &&& sIfdir = 0) hdir
    refine ⟨c.resolve lpath, c.resolve tpath, .entry sid, ?_, ?_, ?_, ?_⟩
    · simp only [vfsChdir, hl, hd, if_true, resolve_take]
    · simp only [vfsChdir, htp, hd, if_true, resolve_take]
    · simp only [Vfs.objectOfPath, hl]
    · simp only [Vfs.objectOfPath, htp]

end Entry

/-! ## At the end of the links -/

section Real

variable {v v' : Vfs} {c : Caller} {path lpath tpath q : CStr} {a k : Nat} {n : Node}

/-- The directory of a task is a resolved path, and so is all it asks for. -/
theorem Caller.resolved (hcwd : ResolvedPath c.cwd) (path : CStr) : ResolvedPath (c.resolve path) := by
  unfold Caller.resolve
  split
  · exact .resolve _ .root
  · exact .resolve _ hcwd

theorem followLoop_resolved {depth : Nat} {p : CStr} (hp : ResolvedPath p)
    (h : followLoop v depth p = .ret (some q)) : ResolvedPath q := by
  induction depth generalizing p with
  | zero => cases h
  | succ depth ih =>
      unfold followLoop at h
      split at h
      · cases h
        exact hp
      · obtain ⟨n, _, h⟩ := Exec.bind_eq_ret.mp h
        split at h
        · cases h
          exact hp
        · split at h
          · cases h
          · obtain ⟨m, _, h⟩ := Exec.bind_eq_ret.mp h
            split at h
            · cases h
            · cases h
            · refine ih ?_ h
              unfold linkTarget
              split
              · exact .resolve _ .root
              · exact .resolve _ .root

/-- And it stays one. -/
theorem vfsChdir_resolved {ret : Int} {cwd : CStr} (hcwd : ResolvedPath c.cwd)
    (h : vfsChdir v c path = .ret (ret, cwd)) : ResolvedPath cwd := by
  unfold vfsChdir at h
  dsimp only at h
  split at h
  · rw [resolve_take] at h
    split at h
    · cases h
      exact Caller.resolved hcwd path
    · cases h
      exact hcwd
  · obtain ⟨followed, hf, h⟩ := Exec.bind_eq_ret.mp h
    cases followed with
    | none =>
        cases h
        exact hcwd
    | some q =>
        have hq := followLoop_resolved (Caller.resolved hcwd path) hf
        obtain ⟨st, hst, rfl⟩ := hq.stack
        have htake : st.text.take (pathMax - 1) = st.text := List.take_of_length_le hst.fits.text_length
        dsimp only at h
        split at h
        · cases h
          exact hcwd
        · obtain ⟨n, _, h⟩ := Exec.bind_eq_ret.mp h
          rw [htake] at h
          split at h
          · cases h
            exact hq
          · cases h
            exact hcwd

/-- A node that is found is held for itself. -/
theorem opened_node (hs : synthLookup c.pids (c.resolve path) = none)
    (h : vfsOpen v c path 0 = .ret (v', some a)) : v'.objectOfNode c.pids a = some (.node a) := by
  rw [vfsOpen_real hs] at h
  obtain ⟨target, hd, h⟩ := Exec.bind_eq_ret.mp h
  obtain ⟨followed, -, hd⟩ := Exec.bind_eq_ret.mp hd
  cases target with
  | none => cases h
  | some b =>
      obtain ⟨n, -, h⟩ := Exec.bind_eq_ret.mp h
      cases h
      rw [Exec.ret.injEq] at hd
      obtain ⟨q, -, hq⟩ := Option.bind_eq_some_iff.mp hd
      exact if_pos (findNode_listed hq)

theorem fillStat_dir (h : (fillStat v n).mode &&& sIfdir ≠ 0) : n.dirBit = true := by
  unfold fillStat at h
  split at h
  · exact absurd (by decide : (sIfchr ||| 438) &&& sIfdir = 0) h
  · exact decide_eq_true h

/-- Two paths whose links lead to one place. -/
theorem transparent_real (ht : NodeTable v) (hl : synthLookup c.pids (c.resolve lpath) = none)
    (htp : synthLookup c.pids (c.resolve tpath) = none)
    (hfl : followSymlinks v (c.resolve lpath) = .ret (some (c.resolve tpath)))
    (hft : followSymlinks v (c.resolve tpath) = .ret (some (c.resolve tpath)))
    (hstat : ∃ st, vfsStat v c tpath = .ret (some st)) : Transparent v c lpath tpath := by
  have hdest : ∀ {path}, followSymlinks v (c.resolve path) = .ret (some (c.resolve tpath)) →
      destination v (c.resolve path) = .ret (findNode v (c.resolve tpath)) := by
    intro path hf
    rw [destination, hf]
    rfl
  obtain ⟨st, hst⟩ := hstat
  have hst' := hst
  rw [vfsStat_real htp, hdest hft, Exec.ret_bind] at hst'
  cases hfind : findNode v (c.resolve tpath) with
  | none =>
      rw [hfind] at hst'
      cases hst'
  | some a =>
      obtain ⟨n, hlive⟩ := ht.live (findNode_listed hfind)
      have hn := Vfs.load_live hlive
      have hto : ∀ {path}, followSymlinks v (c.resolve path) = .ret (some (c.resolve tpath)) →
          destination v (c.resolve path) = .ret (some a) := by
        intro path hf
        rw [hdest hf, hfind]
      have hopen : ∀ {path}, synthLookup c.pids (c.resolve path) = none →
          followSymlinks v (c.resolve path) = .ret (some (c.resolve tpath)) →
          vfsOpen v c path 0 = .ret (v.setNode a { n with refs := n.refs + 1 }, some a) := by
        intro path hs hf
        rw [vfsOpen_real hs, hto hf, Exec.ret_bind, openNode, hn]
        rfl
      refine ⟨⟨st, ?_, hst⟩, ?_, ?_, fun st hst hdir => ?_⟩
      · rw [vfsStat_real hl, hdest hfl]
        exact hst'
      · have hol := hopen hl hfl
        have hot := hopen htp hft
        exact ⟨_, a, _, a, .node a, hol, hot, opened_node hl hol, opened_node htp hot⟩
      · rw [vfsAccess_real hl, vfsAccess_real htp, hto hfl, hto hft]
        exact ⟨rfl, rfl⟩
      · have hd : n.dirBit = true := by
          rw [vfsStat_real htp, hto hft, Exec.ret_bind, statNode, hn, Exec.ret_bind] at hst
          cases hst
          refine fillStat_dir (v := v) fun h => hdir ?_
          split <;> exact h
        have hchdir : ∀ {path}, synthLookup c.pids (c.resolve path) = none →
            followSymlinks v (c.resolve path) = .ret (some (c.resolve tpath)) →
            vfsChdir v c path = .ret (0, c.resolve tpath) := by
          intro path hs hf
          simp only [vfsChdir, hs, hf, Exec.ret_bind, hfind, hn, hd, if_true, resolve_take]
        refine ⟨_, _, .node a, hchdir hl hfl, hchdir htp hft, ?_, ?_⟩
        · simp only [Vfs.objectOfPath, htp, hfind, Option.map_some]
        · simp only [Vfs.objectOfPath, htp, hfind, Option.map_some]

/-- Where a chain of at most seven links ends. -/
theorem follow_chain (ht : NodeTable v) (htexts : LinkTexts v) {p : CStr} (hp : ResolvedPath p) (hk : k ≤ 7)
    (hleads : Leads (linkHop v) k p q) (hend : linkText v q = none) : followSymlinks v p = .ret (some q) := by
  have hchase : chase (linkHop v) 8 p = some q := chase_eq_some.mpr ⟨k, hk, hleads, linkHop_stop.mpr hend⟩
  rw [← hchase]
  exact followLoop_eq ht htexts hp 8

/-- What the calls are about tells entries from nodes, and one entry from
another. -/
theorem Transparent.lookup_eq (ht : NodeTable v) (h : Transparent v c lpath tpath) :
    synthLookup c.pids (c.resolve lpath) = synthLookup c.pids (c.resolve tpath) ∧
      EntryRoom v c (c.resolve tpath) := by
  obtain ⟨v₁, a, v₂, b, o, ha, hb, hoa, hob⟩ := h.opened
  constructor
  · cases hl : synthLookup c.pids (c.resolve lpath) with
    | none =>
        rw [opened_node hl ha] at hoa
        cases htp : synthLookup c.pids (c.resolve tpath) with
        | none => rfl
        | some sid =>
            rw [opened_entry ht htp hb] at hob
            cases hoa
            cases hob
    | some sid =>
        rw [opened_entry ht hl ha] at hoa
        cases htp : synthLookup c.pids (c.resolve tpath) with
        | none =>
            rw [opened_node htp hb] at hob
            cases hoa
            cases hob
        | some sid' =>
            rw [opened_entry ht htp hb] at hob
            cases hoa
            cases hob
            rfl
  · intro sid content htp hgen
    rw [vfsOpen_entry htp] at hb
    exact (synthOpen_gives hb).2 content hgen

end Real

/-- A chain of up to seven links to what `vfs_stat` accepts is transparent
exactly when both its ends are one entry, for which there is memory, or none:
not when it leads into `/proc` or `/sys`. -/
theorem links_transparent_iff {v : Vfs} (ht : NodeTable v) (htexts : LinkTexts v) (info : SysInfo)
    (tasks : List TaskInfo) {cwd : CStr} (hcwd : ResolvedPath cwd) {lpath tpath : CStr} {k : Nat} (hk : k ≤ 7)
    (hleads : Leads (linkHop v) k ((kernelCaller info tasks cwd).resolve lpath)
      ((kernelCaller info tasks cwd).resolve tpath))
    (hend : linkText v ((kernelCaller info tasks cwd).resolve tpath) = none)
    (hstat : ∃ st, vfsStat v (kernelCaller info tasks cwd) tpath = .ret (some st)) :
    Transparent v (kernelCaller info tasks cwd) lpath tpath ↔
      synthLookup (kernelCaller info tasks cwd).pids ((kernelCaller info tasks cwd).resolve lpath) =
          synthLookup (kernelCaller info tasks cwd).pids ((kernelCaller info tasks cwd).resolve tpath) ∧
        EntryRoom v (kernelCaller info tasks cwd) ((kernelCaller info tasks cwd).resolve tpath) := by
  have hr := renders_kernelCaller info tasks cwd
  have hcwd' : ResolvedPath (kernelCaller info tasks cwd).cwd := hcwd
  generalize kernelCaller info tasks cwd = c at *
  refine ⟨Transparent.lookup_eq ht, ?_⟩
  rintro ⟨hsame, hroom⟩
  cases htp : synthLookup c.pids (c.resolve tpath) with
  | some sid => exact transparent_entry ht hr (hsame.trans htp) htp hroom
  | none =>
      have hfl := follow_chain ht htexts (Caller.resolved hcwd' lpath) hk hleads hend
      have hft := follow_chain ht htexts (Caller.resolved hcwd' tpath) (Nat.zero_le 7) (.refl _) hend
      exact transparent_real ht (hsame.trans htp) htp hfl hft hstat

/-- A link to a directory, and one to `/proc`. -/
def twoLinks : List VfsCall :=
  [.mkdir rootCaller (str "/d"), .symlink rootCaller (str "d") (str "/e"),
   .symlink rootCaller (str "/proc") (str "/p")]

/-- The link to the directory is transparent. -/
theorem link_to_directory : ∃ v, vfsCalls (emptyVfs (memoryOf 0) none) twoLinks = .ret v ∧
    Transparent v (kernelCaller quietKernel [] (str "/")) (str "/e") (str "/d") := by
  have hv : ∃ v, vfsCalls (emptyVfs (memoryOf 0) none) twoLinks = .ret v ∧
      linkHop v (str "/e") = .on (str "/d") ∧ linkText v (str "/d") = none ∧
      ∃ st, vfsStat v (kernelCaller quietKernel [] (str "/")) (str "/d") = .ret (some st) :=
    ⟨_, rfl, by decide, by decide, _, rfl⟩
  obtain ⟨v, hv, hhop, hend, hstat⟩ := hv
  have hreach := reach_vfsCalls (S := blobSystem) id (.init ⟨⟨memoryOf 0, none, rfl⟩, nofun⟩) twoLinks hv
  have hroot : ResolvedPath (str "/") := .root
  have hleads : Leads (linkHop v) 1 ((kernelCaller quietKernel [] (str "/")).resolve (str "/e"))
      ((kernelCaller quietKernel [] (str "/")).resolve (str "/d")) := .step hhop (.refl _)
  refine ⟨v, hv, (links_transparent_iff (BlobInv.of_reach hreach).2 (.of_reach hreach) quietKernel [] hroot
    (by decide) hleads hend hstat).mpr ⟨rfl, ?_⟩⟩
  intro sid content hs
  cases hs

/-- The link to `/proc` is one link long, and `vfs_stat` accepts `/proc`. -/
theorem link_to_proc : ∃ v, vfsCalls (emptyVfs (memoryOf 0) none) twoLinks = .ret v ∧
    Leads (linkHop v) 1 (str "/p") (str "/proc") ∧ linkText v (str "/proc") = none ∧
    (∃ st, vfsStat v (kernelCaller quietKernel [] (str "/")) (str "/proc") = .ret (some st)) ∧
    ¬Transparent v (kernelCaller quietKernel [] (str "/")) (str "/p") (str "/proc") := by
  have hv : ∃ v, vfsCalls (emptyVfs (memoryOf 0) none) twoLinks = .ret v ∧
      linkHop v (str "/p") = .on (str "/proc") ∧ linkText v (str "/proc") = none ∧
      (∃ st, vfsStat v (kernelCaller quietKernel [] (str "/")) (str "/proc") = .ret (some st)) ∧
      vfsAccess v (kernelCaller quietKernel [] (str "/")) (str "/p") = .ret (-1) :=
    ⟨_, rfl, by decide, by decide, ⟨_, rfl⟩, rfl⟩
  obtain ⟨v, hv, hhop, hend, hstat, haccess⟩ := hv
  refine ⟨v, hv, .step hhop (.refl _), hend, hstat, fun h => ?_⟩
  rw [h.access.1] at haccess
  cases haccess

end LiteBSD
