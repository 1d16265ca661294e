/-
# `LiteBSD.Vfs.Access` — `vfs_open`, `vfs_stat` and `vfs_access` on one path

The three are written differently: `vfs_open` looks the path up before it
follows links and once more after, the others follow first; `vfs_access`
never asks for the text of a synthetic file.  They agree all the same,
because each of them ends at one place, `destination`:

  * where `follow_symlinks` leads, there is a node that is no link, or none;
  * the text of a synthetic file can always be made (`synthContent_some`).

Nothing is assumed about the state: a chain of links may be as long as it
likes, end nowhere or in a circle.
-/
import LiteBSD.Vfs.Sysinfo
import LiteBSD.Vfs.Names

namespace LiteBSD

def vfsAccess (v : Vfs) (c : Caller) (path : CStr) : Exec Int :=
  let resolved := c.resolve path
  match synthLookup c.pids resolved with
  | some _ => .ret 0
  | none => do
      let followed ← followSymlinks v resolved
      .ret (if (followed.bind (findNode v)).isSome then 0 else -1)

/-- The node at the end of the links that start at `resolved`. -/
def destination (v : Vfs) (resolved : CStr) : Exec (Option Nat) := do
  let followed ← followSymlinks v resolved
  .ret (followed.bind (findNode v))

/-- The end of `vfs_open` with no creation: a node that was found is held. -/
def openNode (v : Vfs) : Option Nat → Exec (Vfs × Option Nat)
  | none => .ret (v, none)
  | some a => do
      let n ← v.load a
      .ret (v.setNode a { n with refs := n.refs + 1 }, some a)

/-- The end of `vfs_stat`. -/
def statNode (v : Vfs) : Option Nat → Exec (Option Stat)
  | none => .ret none
  | some a => do
      let n ← v.load a
      let st := fillStat v n
      .ret (some (if n.path = devNull ∨ n.path = devZero then { st with size := 0 } else st))

/-- Every synthetic file the caller can find has a text, of a size that can
be allocated. -/
def Caller.Renders (c : Caller) : Prop :=
  ∀ path sid, synthLookup c.pids path = some sid → sid.isDir = false →
    ∃ content, c.gen sid = some content ∧ content.length ≤ contentMax

/-- The blocks for the node of a synthetic entry and for its text, if it has
one, can be had. -/
def RoomToOpen (v : Vfs) (content : List UInt8) : Prop :=
  v.mem.outcome v.nextObj = .block ∧ (content ≠ [] → v.mem.outcome (v.nextObj + 1) = .block)

/-- The three calls agree on whether there is anything at the path, and on
what it is. -/
structure ResolvedAlike (v : Vfs) (c : Caller) (path : CStr) : Prop where
  stat : (∃ v' a, vfsOpen v c path 0 = .ret (v', some a)) ↔
    ∃ st, vfsStat v c path = .ret (some st)
  access : (∃ st, vfsStat v c path = .ret (some st)) ↔ vfsAccess v c path = .ret 0
  same : ∀ v' a, vfsOpen v c path 0 = .ret (v', some a) → ∃ st st',
    vfsFstat v' a = .ret st ∧ vfsStat v c path = .ret (some st') ∧ st.ino = st'.ino ∧
      st.mode = st'.mode

section Alike

variable {v v' : Vfs} {c : Caller} {path : CStr}

theorem ResolvedAlike.of_none (hopen : ∀ v' a, vfsOpen v c path 0 ≠ .ret (v', some a))
    (hstat : ∀ st, vfsStat v c path ≠ .ret (some st)) (haccess : vfsAccess v c path ≠ .ret 0) :
    ResolvedAlike v c path := by
  refine ⟨⟨?_, ?_⟩, ⟨?_, fun h => absurd h haccess⟩, fun v' a h => absurd h (hopen v' a)⟩
  · rintro ⟨v', a, h⟩
    exact absurd h (hopen v' a)
  · rintro ⟨st, h⟩
    exact absurd h (hstat st)
  · rintro ⟨st, h⟩
    exact absurd h (hstat st)

theorem ResolvedAlike.of_some {a : Nat} {st st' : Stat}
    (hopen : vfsOpen v c path 0 = .ret (v', some a)) (hstat : vfsStat v c path = .ret (some st'))
    (haccess : vfsAccess v c path = .ret 0) (hfstat : vfsFstat v' a = .ret st)
    (hino : st.ino = st'.ino) (hmode : st.mode = st'.mode) : ResolvedAlike v c path := by
  refine ⟨⟨fun _ => ⟨st', hstat⟩, fun _ => ⟨v', a, hopen⟩⟩, ⟨fun _ => haccess, fun _ => ⟨st', hstat⟩⟩,
    fun w b h => ?_⟩
  rw [hopen] at h
  cases h
  exact ⟨st, st', hfstat, hstat, hino, hmode⟩

end Alike

section Real

variable {v : Vfs} {c : Caller} {path resolved : CStr}

/-- Links lead to a node that is there and is no link, or to nothing. -/
theorem followLoop_end {depth : Nat} {q : CStr} {a : Nat}
    (h : followLoop v depth resolved = .ret (some q)) (ha : findNode v q = some a) :
    ∃ n, v.node a = some n ∧ isSymlinkNode n = false := by
  induction depth generalizing resolved with
  | zero => cases h
  | succ depth ih =>
      unfold followLoop at h
      split at h
      · rename_i hnone
        cases h
        rw [ha] at hnone
        cases hnone
      · rename_i b hb
        obtain ⟨n, hn, h⟩ := Exec.bind_eq_ret.mp h
        split at h
        · rename_i hlink
          cases h
          rw [ha, Option.some.injEq] at hb
          subst hb
          exact ⟨n, Vfs.load_ret hn, by simpa using hlink⟩
        · split at h
          · cases h
          · obtain ⟨m, _, h⟩ := Exec.bind_eq_ret.mp h
            split at h
            · cases h
            · cases h
            · exact ih h

theorem destination_live {a : Nat} (h : destination v resolved = .ret (some a)) :
    ∃ n, v.node a = some n := by
  obtain ⟨followed, hf, h⟩ := Exec.bind_eq_ret.mp h
  rw [Exec.ret.injEq] at h
  obtain ⟨q, rfl, hq⟩ := Option.bind_eq_some_iff.mp h
  obtain ⟨n, hn, _⟩ := followLoop_end hf hq
  exact ⟨n, hn⟩

/-- A path that is no node leads nowhere. -/
theorem destination_none (h : findNode v resolved = none) : destination v resolved = .ret none := by
  simp [destination, followSymlinks, followLoop, h]

/-- Looking first and following later comes to the same node. -/
theorem openTarget_eq {a : Nat} (h : findNode v resolved = some a) :
    openTarget v resolved 0 a = destination v resolved := by
  unfold openTarget destination
  cases hn : v.node a with
  | none => simp [Vfs.load, hn, followSymlinks, followLoop, h]
  | some n =>
      cases hl : isSymlinkNode n with
      | false => simp [Vfs.load, hn, followSymlinks, followLoop, h, hl]
      | true =>
          simp only [Vfs.load, hn, Exec.ret_bind, hl, Bool.not_true, Bool.false_eq_true, if_false]
          cases followSymlinks v resolved with
          | ret followed =>
              cases followed with
              | none => rfl
              | some q =>
                  simp only [Exec.ret_bind, Option.bind_some]
                  cases findNode v q <;> rfl
          | _ => rfl

/-- `vfs_open` of a path that is no synthetic entry. -/
theorem vfsOpen_real (hs : synthLookup c.pids (c.resolve path) = none) :
    vfsOpen v c path 0 = destination v (c.resolve path) >>= openNode v := by
  simp only [vfsOpen, hs]
  cases hf : findNode v (c.resolve path) with
  | none =>
      rw [destination_none hf]
      rfl
  | some a =>
      rw [← openTarget_eq hf]
      refine congrArg (openTarget v (c.resolve path) 0 a >>= ·) (funext fun target => ?_)
      cases target <;> rfl

theorem vfsStat_real (hs : synthLookup c.pids (c.resolve path) = none) :
    vfsStat v c path = destination v (c.resolve path) >>= statNode v := by
  simp only [vfsStat, hs, destination, Exec.bind_assoc, Exec.ret_bind]
  refine congrArg (followSymlinks v (c.resolve path) >>= ·) (funext fun followed => ?_)
  cases followed.bind (findNode v) <;> rfl

theorem vfsAccess_real (hs : synthLookup c.pids (c.resolve path) = none) :
    vfsAccess v c path = destination v (c.resolve path) >>= fun target =>
      .ret (if target.isSome then 0 else -1) := by
  simp only [vfsAccess, hs, destination, Exec.bind_assoc, Exec.ret_bind]

/-- The three calls on a path that is no synthetic entry. -/
theorem resolvedAlike_real (hs : synthLookup c.pids (c.resolve path) = none) :
    ResolvedAlike v c path := by
  have hopen := vfsOpen_real (v := v) hs
  have hstat := vfsStat_real (v := v) hs
  have haccess := vfsAccess_real (v := v) hs
  by_cases hd : ∃ target, destination v (c.resolve path) = .ret target
  · obtain ⟨target, hd⟩ := hd
    rw [hd, Exec.ret_bind] at hopen hstat haccess
    cases target with
    | none =>
        refine .of_none (fun _ _ h => ?_) (fun _ h => ?_) fun h => ?_
        · rw [hopen] at h
          cases h
        · rw [hstat] at h
          cases h
        · rw [haccess] at h
          cases h
    | some a =>
        obtain ⟨n, hn⟩ := destination_live hd
        have hload : v.load a = .ret n := by rw [Vfs.load, hn]
        rw [openNode, hload, Exec.ret_bind] at hopen
        rw [statNode, hload, Exec.ret_bind] at hstat
        have hfstat : vfsFstat (v.setNode a { n with refs := n.refs + 1 }) a = .ret (fillStat v n) := by
          simp [vfsFstat, Vfs.load, Vfs.setNode, fillStat]
        refine .of_some hopen hstat haccess hfstat ?_ ?_
        · split <;> rfl
        · split <;> rfl
  · -- the links are read from memory that is not there, in all three
    refine .of_none (fun _ _ h => hd ?_) (fun _ h => hd ?_) fun h => hd ?_
    · rw [hopen] at h
      obtain ⟨target, ht, _⟩ := Exec.bind_eq_ret.mp h
      exact ⟨target, ht⟩
    · rw [hstat] at h
      obtain ⟨target, ht, _⟩ := Exec.bind_eq_ret.mp h
      exact ⟨target, ht⟩
    · rw [haccess] at h
      obtain ⟨target, ht, _⟩ := Exec.bind_eq_ret.mp h
      exact ⟨target, ht⟩

end Real

section Synthetic

variable {v : Vfs} {c : Caller} {path : CStr} {sid : SynthId}

/-- Storing the text into a block of its size. -/
theorem storeBytes_whole (content : List UInt8) {b : Nat} {m : Buf} (hm : v.buf b = some m)
    (hlen : m.len = content.length) :
    v.storeBytes (some b) 0 content = .ret v ∨
      v.storeBytes (some b) 0 content = .ret (v.setBuf b (m.write 0 content)) := by
  unfold Vfs.storeBytes
  split
  · exact .inl rfl
  · right
    have hload : v.loadBuf b = .ret m := by rw [Vfs.loadBuf, hm]
    dsimp only
    rw [hload, Exec.ret_bind, if_pos (by rw [hlen, Nat.zero_add])]

/-- With memory to be had, an allocation of an ordinary size gives a block. -/
theorem kmalloc_ok {size : Nat} (hmem : v.mem.outcome v.nextObj = .block) (hpos : size ≠ 0)
    (hsize : size ≤ contentMax) :
    v.kmalloc size = .ret ({ v with nextObj := v.nextObj + 1 }, some v.nextObj) := by
  have hroom : ¬size > heapSize - headerSize := by
    have hmax : contentMax ≤ heapSize - headerSize := by decide
    exact Nat.not_lt.mpr (Nat.le_trans hsize hmax)
  rw [Vfs.kmalloc, if_neg hpos, if_neg hroom, hmem]

/-- With memory to be had, a synthetic entry is opened. -/
theorem synthOpen_some (resolved : CStr) {content : List UInt8} (hmem : RoomToOpen v content)
    (hgen : (if sid.isDir then some [] else c.gen sid) = some content)
    (hlen : content.length ≤ contentMax) :
    ∃ v' a data, synthOpen v c resolved sid = .ret (v', some a) ∧
      v'.node a = some (synthNode resolved sid data content.length) := by
  have hnode : v.kmalloc nodeSize = _ := kmalloc_ok hmem.1 (by decide) (by decide)
  unfold synthOpen
  rw [hgen]
  dsimp only
  rw [hnode, Exec.ret_bind]
  dsimp only
  by_cases hnil : content = []
  · subst hnil
    refine ⟨_, v.nextObj, none, rfl, ?_⟩
    simp [Vfs.setNode]
  · have hdata := kmalloc_ok (v := { v with nextObj := v.nextObj + 1 }) (hmem.2 hnil)
      (mt List.length_eq_zero_iff.mp hnil) hlen
    rw [Vfs.kmallocBuf, hdata]
    simp only [Exec.ret_bind, hnil, ne_eq, not_false_eq_true, true_and, reduceCtorEq, if_false]
    rcases storeBytes_whole content (b := v.nextObj + 1)
      (v := Vfs.setBuf { v with nextObj := v.nextObj + 1 + 1 } (v.nextObj + 1)
        ⟨content.length, v.mem.junk (v.nextObj + 1)⟩) (Function.update_self _ _ _) rfl with hst | hst
    · rw [hst]
      refine ⟨_, v.nextObj, some (v.nextObj + 1), rfl, ?_⟩
      simp [Vfs.setNode]
    · rw [hst]
      refine ⟨_, v.nextObj, some (v.nextObj + 1), rfl, ?_⟩
      simp [Vfs.setNode]

/-- A directory has a text too, the empty one. -/
theorem Caller.Renders.text (hr : c.Renders) (hs : synthLookup c.pids path = some sid) : ∃ content,
    (if sid.isDir then some [] else c.gen sid) = some content ∧ content.length ≤ contentMax := by
  cases hd : sid.isDir with
  | true => exact ⟨[], rfl, Nat.zero_le _⟩
  | false => exact hr _ _ hs hd

theorem synthLookup_devFb0 (pids : List Nat) : synthLookup pids devFb0 = none := by
  rfl

theorem resolvedAlike_synth (hmem : ∀ i, v.mem.outcome i = .block) (hr : c.Renders)
    (hs : synthLookup c.pids (c.resolve path) = some sid) : ResolvedAlike v c path := by
  have haccess : vfsAccess v c path = .ret 0 := by simp only [vfsAccess, hs]
  obtain ⟨content, hgen, hlen⟩ := hr.text hs
  obtain ⟨v', a, data, hopen, hn⟩ :=
    synthOpen_some (c.resolve path) ⟨hmem _, fun _ => hmem _⟩ hgen hlen
  have hfull : (synthNode (c.resolve path) sid data content.length).path = c.resolve path :=
    List.take_of_length_le (vfsResolvePath_length _ _)
  have hfb : c.resolve path ≠ devFb0 := by
    intro he
    rw [he, synthLookup_devFb0] at hs
    cases hs
  have hst : vfsFstat v' a = .ret (fillStat v' (synthNode (c.resolve path) sid data content.length)) := by
    simp [vfsFstat, Vfs.load, hn]
  have hopen' : vfsOpen v c path 0 = .ret (v', some a) := by
    simp only [vfsOpen, hs]
    exact hopen
  obtain ⟨st, hstat, hino, hmode⟩ : ∃ st, synthStat c sid = some st ∧ st.ino = synthIno sid ∧
      st.mode = if sid.isDir then sIfdir else sIfreg := by
    unfold synthStat
    cases hd : sid.isDir with
    | true => exact ⟨_, rfl, rfl, rfl⟩
    | false =>
        rw [hd, if_neg Bool.false_ne_true] at hgen
        rw [hgen]
        exact ⟨_, rfl, rfl, rfl⟩
  have hstat' : vfsStat v c path = .ret (some st) := by simp only [vfsStat, hs, hstat]
  refine .of_some hopen' hstat' haccess hst ?_ ?_
  · rw [fillStat, hfull, if_neg hfb, hino]
    rfl
  · rw [fillStat, hfull, if_neg hfb, hmode]
    rfl

end Synthetic

theorem renders_kernelCaller (k : SysInfo) (tasks : List TaskInfo) (cwd : CStr) :
    (kernelCaller k tasks cwd).Renders :=
  fun _ _ hs hfile => synthContent_some k hs hfile

/-- `vfs_open` without creation, `vfs_stat` and `vfs_access` agree on every
path, whatever the file system, the tasks and the directory are. -/
theorem open_stat_access_alike (v : Vfs) (hmem : ∀ i, v.mem.outcome i = .block) (k : SysInfo)
    (tasks : List TaskInfo) (cwd path : CStr) :
    ResolvedAlike v (kernelCaller k tasks cwd) path := by
  cases hs : synthLookup (kernelCaller k tasks cwd).pids ((kernelCaller k tasks cwd).resolve path) with
  | none => exact resolvedAlike_real hs
  | some sid => exact resolvedAlike_synth hmem (renders_kernelCaller k tasks cwd) hs

/-- A kernel that has measured nothing. -/
def quietKernel : SysInfo :=
  { memTotalKb := 0, initrdBytes := 0, heapUsed := 0, cpuVendor := str "Unknown",
    cpuBrand := str "Unknown CPU", cpuFamily := 0, cpuModel := 0, cpuStepping := 0,
    dmiVendor := str "Unknown", dmiProduct := str "Unknown", dmiVersion := str "Unknown",
    ticks := 0, idleTicks := 0, nextPid := 1, taskCount := 0, devices := [], device := none }

/-- The file `/f`, with `/a` as a link to `/b` and that one to the file, and
`/d` as a link to nothing. -/
def linkedFiles : Exec Vfs :=
  vfsCalls (emptyVfs (memoryOf 0) none)
    [.openPath rootCaller (str "/f") 0x40, .close 1, .symlink rootCaller (str "/f") (str "/b"),
      .symlink rootCaller (str "/b") (str "/a"), .symlink rootCaller (str "/nowhere") (str "/d")]

/-- The way of two links, the link to nothing and `/proc/version`. -/
theorem links_and_version_alike : ∃ v, linkedFiles = .ret v ∧
    (ResolvedAlike v (kernelCaller quietKernel [] (str "/")) (str "/a") ∧
      vfsAccess v (kernelCaller quietKernel [] (str "/")) (str "/a") = .ret 0) ∧
    (ResolvedAlike v (kernelCaller quietKernel [] (str "/")) (str "/d") ∧
      vfsAccess v (kernelCaller quietKernel [] (str "/")) (str "/d") = .ret (-1)) ∧
    ResolvedAlike v (kernelCaller quietKernel [] (str "/")) (str "/proc/version") := by
  refine ⟨_, rfl, ⟨?_, rfl⟩, ⟨?_, rfl⟩, ?_⟩
  · exact open_stat_access_alike _ (fun _ => rfl) _ _ _ _
  · exact open_stat_access_alike _ (fun _ => rfl) _ _ _ _
  · exact open_stat_access_alike _ (fun _ => rfl) _ _ _ _

end LiteBSD
