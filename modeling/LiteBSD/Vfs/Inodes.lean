/-
# `LiteBSD.Vfs.Inodes` — what `st_ino` says about two paths

Real nodes are numbered by a counter, the entries of `/proc` and `/sys` by
their place in a table or by a pid.  All of it shares one word, and nothing
keeps the ranges apart: the hundredth file has the number of `/proc/meminfo`,
and the directory of task 3000 that of `/sys/.../sys_vendor`.

| | number |
| :-- | :-- |
| real node | the counter when it was made, from 2 on |
| `/proc` file | 100 and its slot |
| `/proc` | 200 |
| `/proc/<pid>` | 2000 and the pid |
| its files | 100000, eight times the pid, and the slot |
| DMI file | 5000 and its slot |
| `/sys` directory | 6000 and its slot |

`NumbersApart` says when the numbers of what can be reached by path do not
meet, in terms of the numbers of the nodes and of the pids, and
`inodes_identify_iff` that this is exactly when `vfs_lstat` tells any two
objects apart.
-/
import LiteBSD.Vfs.Resolve
import LiteBSD.Vfs.Access
import LiteBSD.Vfs.ReadOnly

namespace LiteBSD

open Lib

/-- What a path can lead to. -/
inductive Object where
  | node (a : Nat)
  | entry (sid : SynthId)
deriving DecidableEq, Repr

/-- What `vfs_lstat` looks at. -/
def objectAt (v : Vfs) (c : Caller) (path : CStr) : Option Object :=
  match synthLookup c.pids (c.resolve path) with
  | some sid => some (.entry sid)
  | none => (findNode v (c.resolve path)).map .node

/-- `vfs_lstat` gives two objects two numbers. -/
def InodesIdentify (v : Vfs) (c : Caller) : Prop :=
  ∀ path path' o o' st st', objectAt v c path = some o → objectAt v c path' = some o' → o ≠ o' →
    vfsLstat v c path = .ret (some st) → vfsLstat v c path' = .ret (some st') → st.ino ≠ st'.ino

/-- The numbers of the entries that are always there. -/
def fixedInos : List Nat :=
  [100, 101, 102, 103, 104, 105, 106, 107, 108, 200, 5000, 5001, 5002, 6000, 6001, 6002, 6003, 6004]

/-- The pids whose directory has one of these numbers. -/
def dirClash : List Nat :=
  [3000, 3001, 3002, 4000, 4001, 4002, 4003, 4004, 4294965396, 4294965397, 4294965398, 4294965399,
   4294965400, 4294965401, 4294965402, 4294965403, 4294965404, 4294965496]

/-- The pids, as far as they count, one of whose files has one of these
numbers. -/
def fileClash : List Nat := [536858425, 536858437, 536859037, 536859162]

/-- The tasks have numbers of their own. -/
structure PidsApart (pids : List Nat) : Prop where
  dirs : ∀ p ∈ pids, p ∉ dirClash
  files : ∀ p ∈ pids, p % 536870912 ∉ fileClash
  dirFile : ∀ p ∈ pids, ∀ q ∈ pids, p ≠ u32 (98000 + q * 8) ∧ p ≠ u32 (98001 + q * 8)
  fileFile : ∀ p ∈ pids, ∀ q ∈ pids, p ≠ q → p % 536870912 ≠ q % 536870912

/-- A path leads to the node. -/
def Named (v : Vfs) (c : Caller) (a : Nat) : Prop := ∃ path, objectAt v c path = some (.node a)

/-- A node that is made finds the counter at a number that no node of the
list has.  It can only fail to after the counter has come round. -/
def NumberFree (v : Vfs) (call : VfsCall) : Prop :=
  ∀ p, call.creates = some p → findNode v p = none → ∀ a n, a = rootAddr ∨ a ∈ v.nodes →
    v.node a = some n → n.ino ≠ v.nextIno

/-- The nodes that a path leads to and the tasks have numbers of their own. -/
structure NumbersApart (v : Vfs) (c : Caller) : Prop where
  fixed : ∀ a n, Named v c a → v.node a = some n → n.ino ∉ fixedInos
  tasks : ∀ a n, Named v c a → v.node a = some n → ∀ p ∈ c.pids,
    n.ino ≠ u32 (2000 + p) ∧ n.ino ≠ u32 (100000 + p * 8) ∧ n.ino ≠ u32 (100001 + p * 8)
  pids : PidsApart c.pids

/-! ## The numbers of the entries -/

section Entries

variable {pids : List Nat} {p q : Nat} {sid sid' : SynthId}

/-- Is the entry there without any task? -/
def SynthId.Fixed : SynthId → Prop
  | .pidDir _ | .pidFile _ _ => False
  | _ => True

/-- The fixed entries have the fixed numbers, each its own. -/
theorem fixed_ino (hfix : sid.Fixed) (h : sid.Exists pids) : synthIno sid ∈ fixedInos := by
  cases sid with
  | procDir => decide
  | proFile slot =>
      change slot < 9 at h
      interval_cases slot <;> decide
  | sysDir slot =>
      change slot < 5 at h
      interval_cases slot <;> decide
  | sysFile slot =>
      change slot < 3 at h
      interval_cases slot <;> decide
  | pidDir => cases hfix
  | pidFile => cases hfix

theorem fixed_ino_inj (hfix : sid.Fixed) (hfix' : sid'.Fixed) (h : sid.Exists pids)
    (h' : sid'.Exists pids) (he : synthIno sid = synthIno sid') : sid = sid' := by
  have hpro : ∀ {slot}, (SynthId.proFile slot).Exists pids → slot < 9 := id
  have hdir : ∀ {slot}, (SynthId.sysDir slot).Exists pids → slot < 5 := id
  have hfile : ∀ {slot}, (SynthId.sysFile slot).Exists pids → slot < 3 := id
  cases sid <;> cases sid' <;> simp only [SynthId.Fixed] at hfix hfix' <;>
    simp only [synthIno] at he <;> grind

/-- The fixed numbers lie in four ranges. -/
theorem mem_fixedInos (f : Nat) : f ∈ fixedInos ↔
    100 ≤ f ∧ f < 109 ∨ f = 200 ∨ 5000 ≤ f ∧ f < 5003 ∨ 6000 ≤ f ∧ f < 6005 := by
  simp only [fixedInos, List.mem_cons, List.not_mem_nil, or_false]
  constructor <;> omega

theorem mem_dirClash (p : Nat) : p ∈ dirClash ↔
    3000 ≤ p ∧ p < 3003 ∨ 4000 ≤ p ∧ p < 4005 ∨ 4294965396 ≤ p ∧ p < 4294965405 ∨
      p = 4294965496 := by
  simp only [dirClash, List.mem_cons, List.not_mem_nil, or_false]
  constructor <;> omega

theorem fixed_of_ino {f : Nat} (hf : f ∈ fixedInos) :
    ∃ sid : SynthId, sid.Fixed ∧ sid.Exists pids ∧ synthIno sid = f := by
  rcases (mem_fixedInos f).mp hf with ⟨hlo, hhi⟩ | rfl | ⟨hlo, hhi⟩ | ⟨hlo, hhi⟩
  · exact ⟨.proFile (f - 100), trivial, (by omega : f - 100 < 9), by rw [synthIno]; omega⟩
  · exact ⟨.procDir, trivial, trivial, rfl⟩
  · exact ⟨.sysFile (f - 5000), trivial, (by omega : f - 5000 < 3), by rw [synthIno]; omega⟩
  · exact ⟨.sysDir (f - 6000), trivial, (by omega : f - 6000 < 5), by rw [synthIno]; omega⟩

theorem dir_ino_iff (hp : p < 4294967296) : u32 (2000 + p) ∈ fixedInos ↔ p ∈ dirClash := by
  rw [mem_fixedInos, mem_dirClash]
  simp only [u32]
  omega

theorem file_ino_iff (p : Nat) :
    (u32 (100000 + p * 8) ∈ fixedInos ∨ u32 (100001 + p * 8) ∈ fixedInos) ↔
      p % 536870912 ∈ fileClash := by
  simp only [mem_fixedInos, fileClash, List.mem_cons, List.not_mem_nil, or_false, u32]
  omega

theorem dir_dir (hp : p < 4294967296) (hq : q < 4294967296)
    (h : u32 (2000 + p) = u32 (2000 + q)) : p = q := by
  simp only [u32] at h
  omega

theorem dir_file (hp : p < 4294967296) (h : u32 (2000 + p) = u32 (100000 + q * 8)) :
    p = u32 (98000 + q * 8) := by
  simp only [u32] at h ⊢
  omega

theorem dir_file' (hp : p < 4294967296) (h : u32 (2000 + p) = u32 (100001 + q * 8)) :
    p = u32 (98001 + q * 8) := by
  simp only [u32] at h ⊢
  omega

theorem file_file (h : u32 (100000 + p * 8) = u32 (100000 + q * 8)) :
    p % 536870912 = q % 536870912 := by
  simp only [u32] at h
  omega

theorem file_file' (h : u32 (100001 + p * 8) = u32 (100001 + q * 8)) :
    p % 536870912 = q % 536870912 := by
  simp only [u32] at h
  omega

theorem file_ne : u32 (100000 + p * 8) ≠ u32 (100001 + q * 8) := by
  simp only [u32]
  omega

theorem pidFile_ino (p : Nat) : synthIno (.pidFile p 1) = u32 (100001 + p * 8) := by
  rw [synthIno]
  congr 1
  omega

/-- The numbers of an entry of a task. -/
theorem task_ino (hfix : ¬sid.Fixed) (h : sid.Exists pids) : ∃ p ∈ pids,
    sid = .pidDir p ∧ synthIno sid = u32 (2000 + p) ∨
      (sid = .pidFile p 0 ∧ synthIno sid = u32 (100000 + p * 8)) ∨
      sid = .pidFile p 1 ∧ synthIno sid = u32 (100001 + p * 8) := by
  cases sid with
  | pidDir p => exact ⟨p, h, .inl ⟨rfl, rfl⟩⟩
  | pidFile p slot =>
      obtain ⟨hmem, hslot⟩ := h
      change slot < 2 at hslot
      refine ⟨p, hmem, .inr ?_⟩
      interval_cases slot
      · exact .inl ⟨rfl, rfl⟩
      · exact .inr ⟨rfl, pidFile_ino p⟩
  | _ => exact absurd trivial hfix

/-- The entries have numbers of their own exactly when the tasks have. -/
theorem entries_apart_iff (hpids : ∀ p ∈ pids, p < 4294967296) :
    (∀ sid sid' : SynthId, sid.Exists pids → sid'.Exists pids → sid ≠ sid' →
      synthIno sid ≠ synthIno sid') ↔ PidsApart pids := by
  have hfile₀ : ∀ p, synthIno (.pidFile p 0) = u32 (100000 + p * 8) := fun p => rfl
  constructor
  · intro h
    refine ⟨fun p hp hclash => ?_, fun p hp hclash => ?_, fun p hp q hq => ?_, fun p hp q hq hpq => ?_⟩
    · obtain ⟨sid, hfix, hex, hino⟩ := fixed_of_ino ((dir_ino_iff (hpids p hp)).mpr hclash)
      refine h (.pidDir p) sid hp hex ?_ hino.symm
      rintro rfl
      cases hfix
    · rcases (file_ino_iff p).mpr hclash with hf | hf
      · obtain ⟨sid, hfix, hex, hino⟩ := fixed_of_ino hf
        refine h (.pidFile p 0) sid ⟨hp, by decide⟩ hex ?_ hino.symm
        rintro rfl
        cases hfix
      · obtain ⟨sid, hfix, hex, hino⟩ := fixed_of_ino hf
        refine h (.pidFile p 1) sid ⟨hp, by decide⟩ hex ?_ ((pidFile_ino p).trans hino.symm)
        rintro rfl
        cases hfix
    · have hlt := hpids p hp
      have h₀ := h (.pidDir p) (.pidFile q 0) hp ⟨hq, by decide⟩ (by simp)
      have h₁ := h (.pidDir p) (.pidFile q 1) hp ⟨hq, by decide⟩ (by simp)
      rw [hfile₀, synthIno] at h₀
      rw [pidFile_ino, synthIno] at h₁
      simp only [u32] at h₀ h₁ ⊢
      omega
    · have h₀ := h (.pidFile p 0) (.pidFile q 0) ⟨hp, by decide⟩ ⟨hq, by decide⟩ (by simpa using hpq)
      rw [hfile₀, hfile₀] at h₀
      simp only [u32] at h₀
      omega
  · intro h
    -- a fixed entry and one of a task, and two of tasks
    have hmixed : ∀ sid sid' : SynthId, sid.Fixed → ¬sid'.Fixed → sid.Exists pids → sid'.Exists pids →
        synthIno sid ≠ synthIno sid' := by
      intro sid sid' hfix hfix' hex hex' he
      have hf := fixed_ino hfix hex
      rw [he] at hf
      obtain ⟨p, hp, ⟨_, hi⟩ | ⟨_, hi⟩ | ⟨_, hi⟩⟩ := task_ino hfix' hex'
      · rw [hi] at hf
        exact h.dirs p hp ((dir_ino_iff (hpids p hp)).mp hf)
      · rw [hi] at hf
        exact h.files p hp ((file_ino_iff p).mp (.inl hf))
      · rw [hi] at hf
        exact h.files p hp ((file_ino_iff p).mp (.inr hf))
    intro sid sid' hex hex' hne he
    by_cases hfix : sid.Fixed
    · by_cases hfix' : sid'.Fixed
      · exact hne (fixed_ino_inj hfix hfix' hex hex' he)
      · exact hmixed sid sid' hfix hfix' hex hex' he
    · by_cases hfix' : sid'.Fixed
      · exact hmixed sid' sid hfix' hfix hex' hex he.symm
      · obtain ⟨p, hp, hcase⟩ := task_ino hfix hex
        obtain ⟨q, hq, hcase'⟩ := task_ino hfix' hex'
        have hfiles : p % 536870912 = q % 536870912 → p = q := by
          intro hmod
          by_contra hpq
          exact h.fileFile p hp q hq hpq hmod
        rcases hcase with ⟨rfl, hi⟩ | ⟨rfl, hi⟩ | ⟨rfl, hi⟩
        · rcases hcase' with ⟨rfl, hi'⟩ | ⟨rfl, hi'⟩ | ⟨rfl, hi'⟩
          · rw [hi, hi'] at he
            exact hne (congrArg SynthId.pidDir (dir_dir (hpids p hp) (hpids q hq) he))
          · rw [hi, hi'] at he
            exact (h.dirFile p hp q hq).1 (dir_file (hpids p hp) he)
          · rw [hi, hi'] at he
            exact (h.dirFile p hp q hq).2 (dir_file' (hpids p hp) he)
        · rcases hcase' with ⟨rfl, hi'⟩ | ⟨rfl, hi'⟩ | ⟨rfl, hi'⟩
          · rw [hi, hi'] at he
            exact (h.dirFile q hq p hp).1 (dir_file (hpids q hq) he.symm)
          · rw [hi, hi'] at he
            exact hne (congrArg (SynthId.pidFile · 0) (hfiles (file_file he)))
          · rw [hi, hi'] at he
            exact file_ne he
        · rcases hcase' with ⟨rfl, hi'⟩ | ⟨rfl, hi'⟩ | ⟨rfl, hi'⟩
          · rw [hi, hi'] at he
            exact (h.dirFile q hq p hp).2 (dir_file' (hpids q hq) he.symm)
          · rw [hi, hi'] at he
            exact file_ne he.symm
          · rw [hi, hi'] at he
            exact hne (congrArg (SynthId.pidFile · 1) (hfiles (file_file' he)))

end Entries

/-! ## What is reported -/

/-- The number of an object. -/
def Numbered (v : Vfs) : Object → Nat → Prop
  | .node a, i => ∃ n, v.node a = some n ∧ n.ino = i
  | .entry sid, i => synthIno sid = i

section Reported

variable {v : Vfs} {c : Caller} {path : CStr} {o : Object}

theorem synthStat_ino {sid : SynthId} (hr : c.Renders)
    (hs : synthLookup c.pids path = some sid) :
    ∃ st, synthStat c sid = some st ∧ st.ino = synthIno sid := by
  unfold synthStat
  split
  · exact ⟨_, rfl, rfl⟩
  · rename_i hd
    obtain ⟨content, hgen, _⟩ := hr path sid hs (by simpa using hd)
    rw [hgen]
    exact ⟨_, rfl, rfl⟩

/-- `vfs_lstat` returns the number of what is at the path. -/
theorem vfsLstat_object (ht : NodeTable v) (hr : c.Renders) (ho : objectAt v c path = some o) :
    ∃ st, vfsLstat v c path = .ret (some st) ∧ Numbered v o st.ino := by
  cases hs : synthLookup c.pids (c.resolve path) with
  | some sid =>
      simp only [objectAt, hs, Option.some.injEq] at ho
      subst ho
      obtain ⟨st, hst, hino⟩ := synthStat_ino hr hs
      exact ⟨st, by simp only [vfsLstat, hs, hst], hino.symm⟩
  | none =>
      simp only [objectAt, hs] at ho
      obtain ⟨a, ha, rfl⟩ := Option.map_eq_some_iff.mp ho
      obtain ⟨n, hn⟩ := ht.live (findNode_listed ha)
      refine ⟨fillStat v n, ?_, n, hn, ?_⟩
      · simp only [vfsLstat, hs, ha, Vfs.load, hn, Exec.ret_bind]
      · unfold fillStat
        split <;> rfl

theorem objectAt_listed {a : Nat} (h : objectAt v c path = some (.node a)) :
    a = rootAddr ∨ a ∈ v.nodes := by
  unfold objectAt at h
  split at h
  · cases h
  · obtain ⟨b, hb, h⟩ := Option.map_eq_some_iff.mp h
    cases h
    exact findNode_listed hb

/-- An entry that exists has a path. -/
theorem objectAt_entry {sid : SynthId} (hpids : ∀ pid ∈ c.pids, pid < 4294967296)
    (h : sid.Exists c.pids) : objectAt v c (pathOf sid.names) = some (.entry sid) := by
  have hres : c.resolve (pathOf sid.names) = pathOf sid.names := resolve_names hpids h _
  unfold objectAt
  rw [hres, synthLookup_names hpids h]

theorem entry_exists {sid : SynthId} (h : objectAt v c path = some (.entry sid)) :
    sid.Exists c.pids := by
  unfold objectAt at h
  split at h
  · rename_i hs
    cases h
    exact exists_of_lookup hs
  · obtain ⟨_, _, h⟩ := Option.map_eq_some_iff.mp h
    cases h

/-- The report tells objects apart when their numbers differ. -/
theorem inodesIdentify_iff (ht : NodeTable v) (hr : c.Renders) : InodesIdentify v c ↔
    ∀ path path' o o' i i', objectAt v c path = some o → objectAt v c path' = some o' → o ≠ o' →
      Numbered v o i → Numbered v o' i' → i ≠ i' := by
  have huniq : ∀ {o : Object} {i j : Nat}, Numbered v o i → Numbered v o j → i = j := by
    intro o i j hi hj
    cases o with
    | node a =>
        obtain ⟨n, hn, rfl⟩ := hi
        obtain ⟨m, hm, rfl⟩ := hj
        rw [Option.some.inj (hn.symm.trans hm)]
    | entry sid => exact hi.symm.trans hj
  constructor
  · intro h path path' o o' i i' ho ho' hne hi hi'
    obtain ⟨st, hst, hnum⟩ := vfsLstat_object ht hr ho
    obtain ⟨st', hst', hnum'⟩ := vfsLstat_object ht hr ho'
    rw [huniq hi hnum, huniq hi' hnum']
    exact h path path' o o' st st' ho ho' hne hst hst'
  · intro h path path' o o' st st' ho ho' hne hst hst'
    obtain ⟨st₁, hst₁, hnum⟩ := vfsLstat_object ht hr ho
    obtain ⟨st₂, hst₂, hnum'⟩ := vfsLstat_object ht hr ho'
    rw [hst] at hst₁
    rw [hst'] at hst₂
    cases hst₁
    cases hst₂
    exact h path path' o o' _ _ ho ho' hne hnum hnum'

end Reported

/-! ## The numbers of the nodes -/

/-- One more node is on the list, with the next number, or none is. -/
def Numbering (v v' : Vfs) : Prop :=
  v'.nodes = v.nodes ∨ ∃ a n, v'.nodes = a :: v.nodes ∧ v'.node a = some n ∧ n.ino = v.nextIno

/-- The root and the nodes of the list have different numbers. -/
def NumbersDistinct (v : Vfs) : Prop :=
  ∀ a b m n, a = rootAddr ∨ a ∈ v.nodes → b = rootAddr ∨ b ∈ v.nodes → a ≠ b →
    v.node a = some m → v.node b = some n → m.ino ≠ n.ino

section Numbers

variable {v v' : Vfs} {c : Caller} {path : CStr}

theorem kmalloc_nextIno {size : Nat} {p : Option Nat} (h : v.kmalloc size = .ret (v', p)) :
    v'.nextIno = v.nextIno := by
  rcases (Vfs.kmalloc_ret h).1 with rfl | rfl <;> rfl

theorem kmallocBuf_nextIno {size : Nat} {p : Option Nat} (h : v.kmallocBuf size = .ret (v', p)) :
    v'.nextIno = v.nextIno := by
  obtain ⟨⟨w, q⟩, hw, h⟩ := Exec.bind_eq_ret.mp h
  rw [← kmalloc_nextIno hw]
  cases q <;> cases h <;> rfl

theorem storeBytes_nextIno {data : Option Nat} {offset : Nat} {src : List UInt8}
    (h : v.storeBytes data offset src = .ret v') : v'.nextIno = v.nextIno := by
  rcases Vfs.storeBytes_ret h with ⟨_, rfl⟩ | ⟨_, _, _, _, _, rfl⟩ <;> rfl

theorem Numbering.linkIn {w : Vfs} {a : Nat} {n : Node} (hnodes : w.nodes = v.nodes)
    (hino : w.nextIno = v.nextIno) : Numbering v (linkIn w a n) := by
  refine .inr ⟨a, { n with ino := w.nextIno }, ?_, ?_, hino⟩
  · rw [← hnodes]
    rfl
  · exact Function.update_self _ _ _

theorem numbering_openCreate {resolved : CStr} {p : Option Nat}
    (h : openCreate v resolved = .ret (v', p)) : Numbering v v' := by
  unfold openCreate at h
  split at h
  · obtain ⟨⟨w, q⟩, hw, h⟩ := Exec.bind_eq_ret.mp h
    have hnodes := (Untouched.kmalloc hw).nodes
    cases q with
    | none =>
        cases h
        exact .inl hnodes
    | some a =>
        cases h
        exact .linkIn hnodes (kmalloc_nextIno hw)
  · cases h
    exact .inl rfl

theorem numbering_vfsOpen {flags : Nat} {p : Option Nat}
    (h : vfsOpen v c path flags = .ret (v', p)) : Numbering v v' := by
  unfold vfsOpen at h
  dsimp only at h
  split at h
  · split at h
    · cases h
      exact .inl rfl
    · have heffect : OpenEffect v v' none p := synthOpen_effect h
      cases heffect with
      | failed hu => exact .inl hu.nodes
      | found _ _ hv => exact .inl (by rw [hv]; rfl)
      | @made a n hm hcreated =>
          cases hsy : n.synth with
          | true => exact .inl (by rw [hm.nodes, hsy]; rfl)
          | false => cases hcreated hsy
  · split at h
    · obtain ⟨target, _, h⟩ := Exec.bind_eq_ret.mp h
      cases target with
      | none =>
          cases h
          exact .inl rfl
      | some t =>
          obtain ⟨n, _, h⟩ := Exec.bind_eq_ret.mp h
          cases h
          exact .inl rfl
    · split at h
      · exact numbering_openCreate h
      · cases h
        exact .inl rfl

theorem numbering_vfsMkdir {ret : Int} (h : vfsMkdir v c path = .ret (v', ret)) :
    Numbering v v' := by
  unfold vfsMkdir at h
  dsimp only at h
  split at h
  · cases h
    exact .inl rfl
  · split at h
    · cases h
      exact .inl rfl
    · split at h
      · cases h
        exact .inl rfl
      · obtain ⟨⟨w, q⟩, hw, h⟩ := Exec.bind_eq_ret.mp h
        have hnodes := (Untouched.kmalloc hw).nodes
        cases q with
        | none =>
            cases h
            exact .inl hnodes
        | some a =>
            cases h
            exact .linkIn hnodes (kmalloc_nextIno hw)

theorem numbering_symlinkNode {resolved target : CStr} {ret : Int}
    (h : symlinkNode v resolved target = .ret (v', ret)) : Numbering v v' := by
  obtain ⟨⟨w, q⟩, hw, h⟩ := Exec.bind_eq_ret.mp h
  have hnodes := (Untouched.kmalloc hw).nodes
  cases q with
  | none =>
      cases h
      exact .inl hnodes
  | some a =>
      obtain ⟨⟨u, data⟩, hu, h⟩ := Exec.bind_eq_ret.mp h
      have hnodes' := (SameNames.kmallocBuf hu).nodes.trans hnodes
      cases data with
      | none =>
          cases h
          exact .inl hnodes'
      | some b =>
          obtain ⟨x, hx, h⟩ := Exec.bind_eq_ret.mp h
          cases h
          refine .linkIn ((SameNames.storeBytes hx).nodes.trans hnodes') ?_
          rw [storeBytes_nextIno hx, kmallocBuf_nextIno hu, kmalloc_nextIno hw]

theorem numbering_vfsSymlink {target : CStr} {ret : Int}
    (h : vfsSymlink v c target path = .ret (v', ret)) : Numbering v v' := by
  unfold vfsSymlink at h
  dsimp only at h
  repeat' split at h
  all_goals first
    | exact numbering_symlinkNode h
    | cases h; exact .inl rfl

/-- Sharing data leaves the node its number. -/
theorem dataShare_ino {a target : Nat} {n : Node} {ret : Int} (hn : v.node a = some n)
    (h : dataShare v a target = .ret (v', ret)) :
    v'.nodes = v.nodes ∧ ∃ n', v'.node a = some n' ∧ n'.ino = n.ino := by
  obtain ⟨t, ht, h⟩ := Exec.bind_eq_ret.mp h
  replace ht := Vfs.load_ret ht
  split at h
  · cases h
    exact ⟨rfl, n, hn, rfl⟩
  · obtain ⟨⟨w, p⟩, hw, h⟩ := Exec.bind_eq_ret.mp h
    obtain ⟨hnodes, m, hm, hino⟩ : w.nodes = v.nodes ∧ ∃ m, w.node a = some m ∧ m.ino = n.ino := by
      rcases shareCell_ret ht hw with ⟨_, hu⟩ | ⟨_, _, _, rfl⟩ | ⟨_, _, rfl⟩
      · exact ⟨hu.nodes, n, by rw [hu.node, hn], rfl⟩
      · exact ⟨rfl, n, hn, rfl⟩
      · refine ⟨rfl, ?_⟩
        by_cases hat : a = target
        · subst hat
          rw [hn, Option.some.injEq] at ht
          subst ht
          exact ⟨_, Function.update_self _ _ _, rfl⟩
        · exact ⟨n, (Function.update_of_ne hat _ _).trans hn, rfl⟩
    cases p with
    | none =>
        cases h
        exact ⟨hnodes, m, hm, hino⟩
    | some k =>
        obtain ⟨refs, _, h⟩ := Exec.bind_eq_ret.mp h
        obtain ⟨t₁, _, h⟩ := Exec.bind_eq_ret.mp h
        obtain ⟨n₁, hn₁, h⟩ := Exec.bind_eq_ret.mp h
        cases h
        obtain rfl : m = n₁ := Option.some.inj (hm.symm.trans (Vfs.load_ret hn₁))
        exact ⟨hnodes, _, Function.update_self _ _ _, hino⟩

theorem numbering_linkNode {resolved : CStr} {target : Nat} {ret : Int}
    (h : linkNode v resolved target = .ret (v', ret)) : Numbering v v' := by
  obtain ⟨t, _, h⟩ := Exec.bind_eq_ret.mp h
  obtain ⟨⟨w, p⟩, hw, h⟩ := Exec.bind_eq_ret.mp h
  have hnodes := (Untouched.kmalloc hw).nodes
  cases p with
  | none =>
      cases h
      exact .inl hnodes
  | some a =>
      obtain ⟨⟨x, r⟩, hx, h⟩ := Exec.bind_eq_ret.mp h
      obtain ⟨hnodes', n, hn, hino⟩ := dataShare_ino (Function.update_self _ _ _) hx
      have hall : x.nodes = v.nodes := hnodes'.trans hnodes
      dsimp only at h
      split at h
      · cases h
        exact .inl hall
      · cases h
        refine .inr ⟨a, n, ?_, hn, hino.trans (kmalloc_nextIno hw)⟩
        rw [← hall]

theorem numbering_vfsLink {targetPath : CStr} {ret : Int}
    (h : vfsLink v c path targetPath = .ret (v', ret)) : Numbering v v' := by
  unfold vfsLink at h
  dsimp only at h
  split at h
  · cases h
    exact .inl rfl
  split at h
  · cases h
    exact .inl rfl
  split at h
  · cases h
    exact .inl rfl
  obtain ⟨t, _, h⟩ := Exec.bind_eq_ret.mp h
  repeat' split at h
  all_goals first
    | exact numbering_linkNode h
    | cases h; exact .inl rfl

/-- A call that makes a node gives it the next number. -/
theorem numbering_of_creates {call : VfsCall} {p : CStr} (hp : call.creates = some p)
    (hs : vfsCall v call = .ret v') : Numbering v v' := by
  cases call with
  | openPath c path flags =>
      obtain ⟨⟨w, r⟩, hw, hs⟩ := Exec.bind_eq_ret.mp hs
      cases hs
      exact numbering_vfsOpen hw
  | mkdir c path =>
      obtain ⟨⟨w, r⟩, hw, hs⟩ := Exec.bind_eq_ret.mp hs
      cases hs
      exact numbering_vfsMkdir hw
  | link c path targetPath =>
      obtain ⟨⟨w, r⟩, hw, hs⟩ := Exec.bind_eq_ret.mp hs
      cases hs
      exact numbering_vfsLink hw
  | symlink c target linkpath =>
      obtain ⟨⟨w, r⟩, hw, hs⟩ := Exec.bind_eq_ret.mp hs
      cases hs
      exact numbering_vfsSymlink hw
  | _ => cases hp

theorem NumbersDistinct.of_kept (h : NumbersDistinct v) (hnodes : ∀ x ∈ v'.nodes, x ∈ v.nodes)
    (hino : ∀ x n', x = rootAddr ∨ x ∈ v'.nodes → v'.node x = some n' →
      ∃ n, v.node x = some n ∧ n'.ino = n.ino) : NumbersDistinct v' := by
  intro a b m n ha hb hne hm hn
  obtain ⟨m₀, hm₀, hmi⟩ := hino a m ha hm
  obtain ⟨n₀, hn₀, hni⟩ := hino b n hb hn
  rw [hmi, hni]
  exact h a b m₀ n₀ (ha.imp_right (hnodes a)) (hb.imp_right (hnodes b)) hne hm₀ hn₀

/-- A node comes with a number that no other has. -/
theorem NumbersDistinct.cons {a : Nat} {n : Node} (h : NumbersDistinct v)
    (hnodes : v'.nodes = a :: v.nodes) (ha : v'.node a = some n)
    (hfree : ∀ x m, x = rootAddr ∨ x ∈ v.nodes → v.node x = some m → m.ino ≠ n.ino)
    (hino : ∀ x n', x ≠ a → v'.node x = some n' → ∃ m, v.node x = some m ∧ n'.ino = m.ino) :
    NumbersDistinct v' := by
  have hknown : ∀ x, x ≠ a → x = rootAddr ∨ x ∈ v'.nodes → x = rootAddr ∨ x ∈ v.nodes := by
    intro x hx hmem
    rw [hnodes] at hmem
    exact hmem.imp_right fun hmem => (List.mem_cons.mp hmem).resolve_left hx
  intro x y p q hx hy hne hp hq
  by_cases hxa : x = a
  · subst hxa
    obtain ⟨m, hm, hmi⟩ := hino y q (Ne.symm hne) hq
    rw [Option.some.inj (hp.symm.trans ha), hmi]
    exact (hfree y m (hknown y (Ne.symm hne) hy) hm).symm
  · obtain ⟨k, hk, hki⟩ := hino x p hxa hp
    by_cases hya : y = a
    · subst hya
      rw [Option.some.inj (hq.symm.trans ha), hki]
      exact hfree x k (hknown x hxa hx) hk
    · obtain ⟨m, hm, hmi⟩ := hino y q hya hq
      rw [hki, hmi]
      exact h x y k m (hknown x hxa hx) (hknown y hya hy) hne hk hm

theorem SameNames.ino (h : SameNames v v') {x : Nat} {n' : Node} (hn' : v'.node x = some n') :
    ∃ n, v.node x = some n ∧ n'.ino = n.ino := by
  have hx := congrFun h.label x
  rw [Vfs.label, Vfs.label, hn', Option.map_some] at hx
  obtain ⟨n, hn, hl⟩ := Option.map_eq_some_iff.mp hx.symm
  exact ⟨n, hn, congrArg Label.ino hl.symm⟩

theorem NumbersDistinct.setNode {a : Nat} {n n' : Node} (h : NumbersDistinct v)
    (hn : v.node a = some n) (hi : n'.ino = n.ino) : NumbersDistinct (v.setNode a n') := by
  refine h.of_kept (fun _ hx => hx) fun x m _ hm => ?_
  by_cases hx : x = a
  · subst hx
    rw [Vfs.node_setNode_self, Option.some.injEq] at hm
    subst hm
    exact ⟨n, hn, hi⟩
  · rw [Vfs.node_setNode_ne hx] at hm
    exact ⟨m, hm, rfl⟩

/-- A node that goes away. -/
theorem NumbersDistinct.drop {a : Nat} (h : NumbersDistinct v) (hnodes : ∀ x ∈ v'.nodes, x ∈ v.nodes)
    (hnode : v'.node = Function.update v.node a none) : NumbersDistinct v' := by
  refine h.of_kept hnodes fun x m _ hm => ?_
  rw [hnode] at hm
  by_cases hx : x = a
  · rw [hx, Function.update_self] at hm
    cases hm
  · rw [Function.update_of_ne hx] at hm
    exact ⟨m, hm, rfl⟩

/-- What a call makes has the next number. -/
theorem ino_of_creates {call : VfsCall} {a : Nat} {n : Node} {p : CStr}
    (hp : call.creates = some p) (hs : vfsCall v call = .ret v') (hnodes : v'.nodes = a :: v.nodes)
    (hn : v'.node a = some n) : n.ino = v.nextIno := by
  rcases numbering_of_creates hp hs with hsame | ⟨b, m, hb, hm, hino⟩
  · rw [hsame] at hnodes
    exact absurd (congrArg List.length hnodes) (Nat.ne_of_lt (Nat.lt_succ_self _))
  · rw [hnodes] at hb
    obtain rfl := (List.cons.inj hb).1
    rwa [Option.some.inj (hn.symm.trans hm)]

/-- A call that finds the counter free keeps the numbers distinct. -/
theorem NumbersDistinct.step {call : VfsCall} (h : NumbersDistinct v) (ht : NodeTable v)
    (hg : NumberFree v call) (hs : vfsCall v call = .ret v') : NumbersDistinct v' := by
  cases call_effect ht.fresh hs with
  | idle hu =>
      exact h.of_kept (fun x hx => hu.nodes ▸ hx) fun x n' _ hn' => ⟨n', hu.node ▸ hn', rfl⟩
  | opened hn _ hv =>
      subst hv
      exact h.setNode hn rfl
  | @made _ a n hm hp =>
      have hother : ∀ x n', x ≠ a → v'.node x = some n' → ∃ m, v.node x = some m ∧ n'.ino = m.ino := by
        intro x n' hx hn'
        rw [hm.node, Function.update_of_ne hx] at hn'
        exact ⟨n', hn', rfl⟩
      have hself : v'.node a = some n := by rw [hm.node, Function.update_self]
      cases hsy : n.synth with
      | true =>
          have hnodes : v'.nodes = v.nodes := by rw [hm.nodes, hsy]; rfl
          refine h.of_kept (fun x hx => hnodes ▸ hx) fun x n' hx hn' => hother x n' ?_ hn'
          rintro rfl
          rw [hnodes] at hx
          obtain ⟨m, hxm⟩ := ht.live hx
          exact absurd (ht.lt_supply hxm) (Nat.not_lt.mpr hm.fresh.1)
      | false =>
          have hnodes : v'.nodes = a :: v.nodes := by rw [hm.nodes, hsy]; rfl
          refine h.cons hnodes hself ?_ hother
          rw [ino_of_creates (hp hsy) hs hnodes hself]
          exact hg _ (hp hsy) (hm.absent hsy)
  | @linked c path targetPath a target k n t hl hp =>
      have hself : v'.node a = some n := by rw [hl.node, Function.update_self]
      refine h.cons hl.nodes hself ?_ fun x n' hx hn' => ?_
      · rw [ino_of_creates (p := c.resolve path) rfl hs hl.nodes hself]
        exact hg _ rfl (hp ▸ hl.absent)
      · rw [hl.node, Function.update_of_ne hx] at hn'
        by_cases hxt : x = target
        · subst hxt
          rw [Function.update_self, Option.some.injEq] at hn'
          subst hn'
          exact ⟨t, hl.live, rfl⟩
        · rw [Function.update_of_ne hxt] at hn'
          exact ⟨n', hn', rfl⟩
  | wrote hw =>
      have hsame := SameNames.of_vfsWrite hw
      exact h.of_kept (fun x hx => hsame.nodes ▸ hx) fun x n' _ hn' => hsame.ino hn'
  | truncated hw =>
      have hsame := SameNames.of_vfsTruncate hw
      exact h.of_kept (fun x hx => hsame.nodes ▸ hx) fun x n' _ hn' => hsame.ino hn'
  | closed hc =>
      obtain ⟨n, hn, ⟨k, rfl⟩ | ⟨_, _, _, hnodes, hnode, _⟩⟩ := vfsClose_ret hc
      · exact h.setNode hn rfl
      · exact h.drop (fun x hx => hnodes ▸ hx) hnode
  | unlinked _ _ hun =>
      obtain ⟨n, hun⟩ := unlinkNode_ret hun
      exact h.drop (fun x hx => List.mem_of_mem_erase (hun.nodes ▸ hx)) hun.node
  | renamed _ hr =>
      obtain ⟨n, _, rfl⟩ := renameNode_ret hr
      refine h.of_kept (fun _ hx => hx) fun x n' _ hn' => ?_
      obtain ⟨m, hm, rfl⟩ := Option.map_eq_some_iff.mp hn'
      exact ⟨m, hm, rfl⟩

theorem NumbersDistinct.of_reach (h : vfsSystem.ReachVia NumberFree v) : NumbersDistinct v := by
  refine (System.ReachVia.invariant (I := fun v => NodeTable v ∧ NumbersDistinct v) ?_ ?_ h).2
  · rintro w hw
    refine ⟨.of_boot hw, ?_⟩
    obtain ⟨mem, fb, rfl⟩ := hw
    intro a b m n ha hb hne
    rcases ha with rfl | ha
    · rcases hb with rfl | hb
      · exact absurd rfl hne
      · cases hb
    · cases ha
  · exact fun w call w' ⟨ht, hd⟩ hg hs => ⟨ht.step hs, hd.step ht hg hs⟩

end Numbers

/-- In every state of a run that found the counter free, `vfs_lstat` tells any
two objects apart exactly when the numbers are apart. -/
theorem inodes_identify_iff {v : Vfs} (h : vfsSystem.ReachVia NumberFree v) (k : SysInfo) (tasks : List TaskInfo)
    (hpids : ∀ t ∈ tasks, t.pid < 4294967296) (cwd : CStr) :
    InodesIdentify v (kernelCaller k tasks cwd) ↔ NumbersApart v (kernelCaller k tasks cwd) := by
  have ht := NodeTable.of_reach (h.mono fun _ _ _ => trivial)
  have hdistinct := NumbersDistinct.of_reach h
  have hwords : ∀ p ∈ (kernelCaller k tasks cwd).pids, p < 4294967296 := by
    intro p hp
    obtain ⟨t, hmem, rfl⟩ := List.mem_map.mp hp
    exact hpids t hmem
  rw [inodesIdentify_iff ht (renders_kernelCaller k tasks cwd)]
  generalize kernelCaller k tasks cwd = c at *
  constructor
  · intro hid
    have hentries : ∀ sid sid' : SynthId, sid.Exists c.pids → sid'.Exists c.pids → sid ≠ sid' →
        synthIno sid ≠ synthIno sid' := by
      intro sid sid' hex hex' hne
      refine hid _ _ _ _ _ _ (objectAt_entry hwords hex) (objectAt_entry hwords hex') ?_ rfl rfl
      simpa using hne
    have hnode : ∀ a n (sid : SynthId), Named v c a → v.node a = some n → sid.Exists c.pids →
        n.ino ≠ synthIno sid := by
      rintro a n sid ⟨path, hpath⟩ hn hex
      refine hid _ _ _ _ _ _ hpath (objectAt_entry hwords hex) ?_ ⟨n, hn, rfl⟩ rfl
      simp
    refine ⟨?_, ?_, (entries_apart_iff hwords).mp hentries⟩
    · intro a n ha hn hfix
      obtain ⟨sid, _, hex, hino⟩ := fixed_of_ino hfix
      exact hnode a n sid ha hn hex hino.symm
    · intro a n ha hn p hp
      refine ⟨hnode a n (.pidDir p) ha hn hp, hnode a n (.pidFile p 0) ha hn ⟨hp, by decide⟩, ?_⟩
      have h₁ := hnode a n (.pidFile p 1) ha hn ⟨hp, by decide⟩
      rwa [pidFile_ino] at h₁
  · intro hap path path' o o' i i' ho ho' hne hi hi'
    have hentries := (entries_apart_iff hwords).mpr hap.pids
    -- a node and an entry
    have hmixed : ∀ {path path' a sid i i'}, objectAt v c path = some (.node a) →
        objectAt v c path' = some (.entry sid) → Numbered v (.node a) i →
        Numbered v (.entry sid) i' → i ≠ i' := by
      rintro path path' a sid i i' ho ho' ⟨n, hn, rfl⟩ rfl he
      have hex := entry_exists ho'
      by_cases hfix : sid.Fixed
      · exact hap.fixed a n ⟨path, ho⟩ hn (he ▸ fixed_ino hfix hex)
      · obtain ⟨p, hp, hcase⟩ := task_ino hfix hex
        obtain ⟨hdir, hfile, hfile'⟩ := hap.tasks a n ⟨path, ho⟩ hn p hp
        rcases hcase with ⟨_, hino⟩ | ⟨_, hino⟩ | ⟨_, hino⟩
        · exact hdir (he.trans hino)
        · exact hfile (he.trans hino)
        · exact hfile' (he.trans hino)
    cases o with
    | node a =>
        cases o' with
        | node b =>
            obtain ⟨m, hm, rfl⟩ := hi
            obtain ⟨n, hn, rfl⟩ := hi'
            exact hdistinct a b m n (objectAt_listed ho) (objectAt_listed ho') (by simpa using hne) hm hn
        | entry sid => exact hmixed ho ho' hi hi'
    | entry sid =>
        cases o' with
        | node b => exact (hmixed ho' ho hi' hi).symm
        | entry sid' =>
            rw [← hi, ← hi']
            exact hentries sid sid' (entry_exists ho) (entry_exists ho') (by simpa using hne)

/-- One task with this pid. -/
def loneTask (pid : Nat) : TaskInfo :=
  { pid := pid, ppid := 0, state := 0, heapStart := 0, heapBrk := 0, heapEnd := 0, cpuTicks := 0,
    startTick := 0, comm := [], cmdline := fun _ => 0 }

/-- The first directory is made with a free number. -/
theorem inodes_after_mkdir : ∃ v, vfsSystem.step (emptyVfs (memoryOf 0) none)
    (.mkdir rootCaller (str "/a")) v ∧
      (InodesIdentify v (kernelCaller quietKernel [loneTask 1] (str "/")) ↔
        NumbersApart v (kernelCaller quietKernel [loneTask 1] (str "/"))) := by
  obtain ⟨v, hs⟩ : ∃ v, vfsSystem.step (emptyVfs (memoryOf 0) none)
      (.mkdir rootCaller (str "/a")) v := ⟨_, rfl⟩
  have hfree : NumberFree (emptyVfs (memoryOf 0) none) (.mkdir rootCaller (str "/a")) := by
    intro p _ _ a n ha hn
    rcases ha with rfl | ha
    · cases hn
      decide
    · cases ha
  refine ⟨v, hs, inodes_identify_iff (.step (.init ⟨_, _, rfl⟩) hfree hs) _ _ (fun t ht => ?_) _⟩
  rw [List.mem_singleton.mp ht]
  decide

/-- `/proc/3000` and `/sys/devices/virtual/dmi/id/sys_vendor` both have the
number 5000. -/
theorem task_with_number_of_file : ¬∀ v, vfsSystem.Reach v → ∀ k tasks,
    (∀ t ∈ tasks, t.pid < 4294967296) → ∀ cwd, InodesIdentify v (kernelCaller k tasks cwd) := by
  intro hall
  refine hall (emptyVfs (memoryOf 0) none) (.init ⟨_, _, rfl⟩) quietKernel [loneTask 3000]
    (fun t ht => ?_) (str "/") (str "/proc/3000") (str "/sys/devices/virtual/dmi/id/sys_vendor")
    (.entry (.pidDir 3000)) (.entry (.sysFile 0)) ⟨0, sIfdir, 5000⟩ ⟨8, sIfreg, 5000⟩ rfl rfl
    (by decide) rfl rfl rfl
  rw [List.mem_singleton.mp ht]
  decide

end LiteBSD
