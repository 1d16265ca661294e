/-
# `LiteBSD.Execve.Start` — what a program is started from and what it finds

Two things a program relies on: that it is an ELF file, and that `argv` and
`envp` are on its stack.

The second always holds (`exec_stack_decodes`).  The first does not: the `#!`
loop goes on to its next round with the script still open, and behind the
fifth round there is none.  So the fifth script of a chain is loaded as if it
had been the ELF file (`begins_elf_iff`); a script that names itself is such a
chain.
-/
import LiteBSD.Execve.Failure

namespace LiteBSD.Execve

/-! ## The arguments -/

section Arguments

variable {s s' : State} {t : Task}

theorem bytes_getElem? (s : State) (a n i : Nat) (hi : i < n) : (s.bytes a n)[i]? = some (s.mem (u32 (a + i))) := by
  rw [State.bytes, List.getElem?_map, List.getElem?_range hi]
  rfl

theorem StringAt.nul {a : Nat} {str : CStr} (h : StringAt s a str) : s.mem (u32 (a + str.length)) = 0 := by
  have hbyte := bytes_getElem? s a (str.length + 1) str.length (Nat.lt_succ_self _)
  rw [h.2, withNul, List.getElem?_append_right (Nat.le_refl _), Nat.sub_self] at hbyte
  exact (Option.some.inj hbyte).symm

/-- There is one string at an address: its first NUL ends it. -/
theorem StringAt.length_le {a : Nat} {x y : CStr} (hx : StringAt s a x) (hy : StringAt s a y) :
    x.length ≤ y.length := by
  by_contra hlt
  have hlt := Nat.lt_of_not_le hlt
  have h := bytes_getElem? s a (x.length + 1) y.length (Nat.lt_succ_of_lt hlt)
  rw [hx.2, withNul, List.getElem?_append_left hlt, hy.nul] at h
  exact hx.1 (List.mem_of_getElem? h)

theorem StringAt.unique {a : Nat} {x y : CStr} (hx : StringAt s a x) (hy : StringAt s a y) : x = y := by
  have hlen : x.length = y.length := Nat.le_antisymm (hx.length_le hy) (hy.length_le hx)
  have h := hx.2
  rw [hlen, hy.2] at h
  exact (List.append_cancel_right h).symm

/-- There is one vector at an address. -/
theorem VectorAt.unique {uvec : Nat} {x y : List CStr} (hx : VectorAt s uvec x) (hy : VectorAt s uvec y) :
    x = y := by
  unfold VectorAt at hx hy
  split at hx
  · rename_i hnull
    rw [if_pos hnull] at hy
    rw [hx, hy]
  · rename_i hvec
    rw [if_neg hvec] at hy
    have hle : ∀ {u v : List CStr}, PointersAt s uvec u → s.word (u32 (uvec + v.length * 4)) = 0 →
        u.length ≤ v.length := by
      intro u v hu hv
      by_contra hlt
      have hlt := Nat.lt_of_not_le hlt
      exact (hu v.length _ (List.getElem?_eq_getElem hlt)).1 hv
    have hlen : x.length = y.length := Nat.le_antisymm (hle hx.1 hy.2) (hle hy.1 hx.2)
    refine List.ext_getElem hlen fun i hi hi' => ?_
    exact (hx.1 i _ (List.getElem?_eq_getElem hi)).2.unique (hy.1 i _ (List.getElem?_eq_getElem hi')).2

/-- Dropping the old stack leaves the new one. -/
theorem dropOldStack_buf {w w' : Vfs} {parent : Option Parent} {b : Nat} (h : dropOldStack w t parent = .ret w')
    (hne : t.userStackBase ≠ some b) : w'.buf b = w.buf b := by
  unfold dropOldStack at h
  split at h
  · cases h
    rfl
  · rename_i old hold
    split at h
    · cases h
      rfl
    · unfold kfreeBuf at h
      split at h
      · cases h
      · cases h
        refine Function.update_of_ne ?_ _ _
        rintro rfl
        exact hne hold

/-- The stack of a new program decodes to its arguments: those of the caller,
with what the `#!` lines on the way have put in front. -/
theorem exec_stack_decodes {path argvU envpU : Nat} {argv envp : List CStr} (hv : Settled s.vfs)
    (ht : s.task = some t) (hold : ∀ b, t.userStackBase = some b → b < s.vfs.nextObj)
    (hargv : VectorAt s argvU argv) (henvp : VectorAt s envpU envp)
    (he : sysExecveImpl s path argvU envpU = .ret (s', 0)) :
    ∃ t' stack m st, s'.task = some t' ∧ t'.userStackBase = some stack ∧ s'.vfs.buf stack = some m ∧
      t'.userStackTop = stackTop (s.place.addr stack) ∧
      stackTop (s.place.addr stack) < s.place.addr stack + execStackSize ∧
      Decodes (s.place.addr stack) m s'.frame.esp
        (followScripts s.caller s.vfs 5 (readPath s path) argv).2 envp st := by
  rcases sysExecveImpl_spec hv ht he with ⟨hr, _⟩ | ⟨args, envs, hargs, henvs, ⟨hr, _⟩ | ⟨_, w, stack, snap, hst⟩⟩
  · cases hr
  · cases hr
  · obtain rfl := hargs.unique hargv
    obtain rfl := henvs.unique henvp
    obtain ⟨m, st, hm, hdec⟩ := hst.start
    obtain ⟨n, htask⟩ := hst.task
    refine ⟨_, stack, m, st, htask, rfl, ?_, rfl, ?_, hdec⟩
    · rw [dropOldStack_buf hst.old, hm]
      intro hb
      exact absurd (hold stack hb) (Nat.not_lt.mpr (hst.restored.1.fresh stack List.mem_cons_self).1)
    · have hle := (stackTop_bounds s.place stack).2.1
      have hsize : execStackSize = 16384 := rfl
      omega

end Arguments

/-! ## A program to try it on -/

/-- The file system with a file `/a` and nothing else. -/
def withFile (content : List UInt8) : Vfs :=
  afterCalls [.openPath rootCaller (str "/a") 0x40, .write 1 0 content, .close 1]

theorem settled_withFile {content : List UInt8} : Settled (withFile content) := settled_afterCalls

/-- The headers of a program with one segment, of 16 bytes at `0x8000000`. -/
def imageOf (start : List UInt8) : List UInt8 :=
  start ++ List.replicate (24 - start.length) 0 ++ [0, 0, 0, 8, 52, 0, 0, 0] ++ List.replicate 10 0 ++
    [32, 0, 1, 0] ++ List.replicate 6 0 ++
    [1, 0, 0, 0, 0, 0, 0, 0, 0, 0, 0, 8, 0, 0, 0, 8, 0, 0, 0, 0, 16, 0, 0, 0] ++ List.replicate 8 0

/-- A machine with the program `/a`, whose name is at `0x8000000`.  Behind it
are a vector of two strings, `ab` and `cd`, and one of the string `X=1`. -/
def elfMachine : State :=
  machineOf (withFile (imageOf [127, 69, 76, 70]))
    ([47, 97, 0, 0] ++ [24, 0, 0, 8, 27, 0, 0, 8, 0, 0, 0, 0] ++ [30, 0, 0, 8, 0, 0, 0, 0] ++
      [97, 98, 0] ++ [99, 100, 0] ++ [88, 61, 49, 0])

theorem settled_elfMachine : Settled elfMachine.vfs := @settled_withFile (imageOf [127, 69, 76, 70])

/-- The program is run, without vectors and with them. -/
theorem elf_runs : (∃ s', sysExecveImpl elfMachine userLoadAddr 0 0 = .ret (s', 0)) ∧
    ∃ s', sysExecveImpl elfMachine userLoadAddr (userLoadAddr + 4) (userLoadAddr + 16) = .ret (s', 0) :=
  ⟨exists_of_returned (by decide +kernel), exists_of_returned (by decide +kernel)⟩

theorem elfMachine_head : fileHead elfMachine.vfs rootCaller (readPath elfMachine userLoadAddr) =
    some (imageOf [127, 69, 76, 70]) := by
  decide +kernel

theorem elfMachine_argv : VectorAt elfMachine (userLoadAddr + 4) [str "ab", str "cd"] := by
  rw [VectorAt, if_neg (by decide)]
  refine ⟨fun j str hj => ?_, by decide⟩
  rcases j with _ | _ | j
  · cases hj
    exact ⟨by decide, by decide, by decide⟩
  · cases hj
    exact ⟨by decide, by decide, by decide⟩
  · cases hj

theorem elfMachine_envp : VectorAt elfMachine (userLoadAddr + 16) [str "X=1"] := by
  rw [VectorAt, if_neg (by decide)]
  refine ⟨fun j str hj => ?_, by decide⟩
  cases j with
  | zero =>
      cases hj
      exact ⟨by decide, by decide, by decide⟩
  | succ j => cases hj

theorem elf_finds_its_arguments : ∃ s' stack m st,
    sysExecveImpl elfMachine userLoadAddr (userLoadAddr + 4) (userLoadAddr + 16) = .ret (s', 0) ∧
      Decodes (sideBySide.addr stack) m s'.frame.esp [str "ab", str "cd"] [str "X=1"] st := by
  obtain ⟨s', hs'⟩ := elf_runs.2
  obtain ⟨_, stack, m, st, _, _, _, _, _, hdec⟩ :=
    exec_stack_decodes settled_elfMachine rfl (fun _ hb => by cases hb) elfMachine_argv elfMachine_envp hs'
  rw [followScripts_elf elfMachine_head rfl] at hdec
  exact ⟨s', stack, m, st, hs', hdec⟩

/-! ## The file -/

/-- The node begins with `7F 'E' 'L' 'F'`. -/
def BeginsElf (v : Vfs) (node : Nat) : Prop :=
  ∃ hbuf r, vfsRead v node 0 128 = .ret (hbuf, r) ∧ hbuf.take 4 = [0x7F, 0x45, 0x4C, 0x46]

theorem beginsElf_iff {v : Vfs} {node : Nat} {hbuf : List UInt8} {r : Int} (h : vfsRead v node 0 128 = .ret (hbuf, r)) :
    BeginsElf v node ↔ isElf hbuf = true := by
  constructor
  · rintro ⟨hbuf', r', h', helf⟩
    rw [h] at h'
    cases h'
    exact decide_eq_true helf
  · intro helf
    exact ⟨hbuf, r, h, of_decide_eq_true helf⟩

/-- A call that succeeds has loaded an image. -/
theorem startsLoading_of_success {s s' : State} {path argvU envpU : Nat}
    (he : sysExecveImpl s path argvU envpU = .ret (s', 0)) :
    ∃ s₁ node stack script envv, StartsLoading s path argvU envpU s₁ node stack script envv := by
  obtain ⟨⟨w₁, p₁⟩, h₁, he⟩ := Exec.bind_eq_ret.mp he
  cases p₁ with
  | none => cases he
  | some argv =>
      obtain ⟨⟨w₂, p₂⟩, h₂, he⟩ := Exec.bind_eq_ret.mp he
      cases p₂ with
      | none =>
          obtain ⟨x, _, he⟩ := Exec.bind_eq_ret.mp he
          cases he
      | some envv =>
          dsimp only at he
          split at he
          · obtain ⟨x, _, he⟩ := Exec.bind_eq_ret.mp he
            cases he
          · rename_i hbudget
            obtain ⟨⟨w₃, p₃⟩, h₃, he⟩ := Exec.bind_eq_ret.mp he
            cases p₃ with
            | none => cases he
            | some script =>
                dsimp only at he
                unfold startImage at he
                split at he
                · obtain ⟨x, _, he⟩ := Exec.bind_eq_ret.mp he
                  cases he
                · rename_i node hnode
                  split at he
                  · obtain ⟨x, _, he⟩ := Exec.bind_eq_ret.mp he
                    cases he
                  · rename_i hbudget'
                    obtain ⟨⟨w₄, p₄⟩, h₄, he⟩ := Exec.bind_eq_ret.mp he
                    cases p₄ with
                    | none =>
                        obtain ⟨x, _, he⟩ := Exec.bind_eq_ret.mp he
                        cases he
                    | some stack =>
                        exact ⟨_, node, stack, script, envv, w₁, argv, w₂, w₃, w₄, h₁, h₂,
                          Bool.eq_false_iff.mpr hbudget, h₃, hnode, Bool.eq_false_iff.mpr hbudget', h₄, rfl⟩

/-- What an image is loaded from begins as an ELF file exactly if one of the
first five files of the chain is no script. -/
theorem begins_elf_iff {s s₁ : State} {path argvU envpU node stack : Nat} {script : Script} {envv : Vec}
    (hv : Settled s.vfs) (h : StartsLoading s path argvU envpU s₁ node stack script envv) :
    BeginsElf s₁.vfs node ↔ exhausts s.caller s.vfs 5 (readPath s path) = false := by
  obtain ⟨_, _, _, _, _, _, _, ⟨a, hbuf, r, ha, hread, hhead⟩, _⟩ := h.stage hv
  cases ha
  rw [beginsElf_iff hread]
  cases hex : exhausts s.caller s.vfs 5 (readPath s path) with
  | true =>
      rw [hex] at hhead
      simp [not_isElf_of_isScript hhead]
  | false =>
      rw [hex] at hhead
      simpa using hhead

/-- A file `/a` that begins with `#!/a`, and behind that reads as a program. -/
def scriptMachine : State := machineOf (withFile (imageOf (str "#!/a\n"))) (str "/a")

/-- An ELF file is run as it is. -/
theorem elf_begins_elf : ∃ s₁ node stack script envv,
    StartsLoading elfMachine userLoadAddr 0 0 s₁ node stack script envv ∧ BeginsElf s₁.vfs node := by
  obtain ⟨s', hs'⟩ := elf_runs.1
  obtain ⟨s₁, node, stack, script, envv, h⟩ := startsLoading_of_success hs'
  exact ⟨s₁, node, stack, script, envv, h, (begins_elf_iff settled_elfMachine h).mpr (exhausts_elf elfMachine_head rfl)⟩

/-- The script that names itself is loaded as a program. -/
theorem script_is_loaded : ¬∀ s path argvU envpU s₁ node stack script envv, Settled s.vfs →
    StartsLoading s path argvU envpU s₁ node stack script envv → BeginsElf s₁.vfs node := by
  intro hall
  obtain ⟨s', hs'⟩ : ∃ s', sysExecveImpl scriptMachine userLoadAddr 0 0 = .ret (s', 0) :=
    exists_of_returned (by decide +kernel)
  obtain ⟨s₁, node, stack, script, envv, h⟩ := startsLoading_of_success hs'
  have hv : Settled scriptMachine.vfs := @settled_withFile (imageOf (str "#!/a\n"))
  have helf := hall _ _ _ _ _ _ _ _ _ hv h
  obtain ⟨_, _, _, _, _, _, _, ⟨a, hbuf, r, ha, hread, hhead⟩, _⟩ := h.stage hv
  cases ha
  have hex : exhausts scriptMachine.caller scriptMachine.vfs 5 (readPath scriptMachine userLoadAddr) = true := by
    decide +kernel
  rw [hex, if_pos rfl] at hhead
  rw [beginsElf_iff hread, not_isElf_of_isScript hhead] at helf
  cases helf

end LiteBSD.Execve
