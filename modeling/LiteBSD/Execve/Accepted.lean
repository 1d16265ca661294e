/-
# `LiteBSD.Execve.Accepted` — which vectors `exec_copy_vec` takes

The limits are three: 64 entries, with the `NULL` behind them looked for in
the 65th word; 1023 bytes of a string; 8192 bytes in all, the NULs included.
With them goes that each word and each byte that is looked at may be read.

`AcceptedVector` says this of user memory, without the loops.  While memory is
to be had, the vectors that are copied are these (`exec_copy_vec_exact`), and
one that is not takes nothing of the heap.
-/
import LiteBSD.Execve.Start

namespace LiteBSD.Execve

/-- The string at `a`, which is short enough, with its NUL where a program may
read. -/
structure ReadableString (s : State) (a : Nat) (str : CStr) : Prop where
  string : StringAt s a str
  short : str.length < execMaxStrlen
  valid : ∀ j ≤ str.length, syscallRangeValid s (u32 (a + j)) 1 = true

/-- The vector at `uvec` is within the limits. -/
structure AcceptedVector (s : State) (uvec : Nat) (strs : List CStr) : Prop where
  vector : VectorAt s uvec strs
  count : strs.length ≤ 64
  total : (strs.map fun str => str.length + 1).sum ≤ execMaxTotal
  words : uvec ≠ 0 → ∀ j ≤ strs.length, syscallRangeValid s (u32 (uvec + j * 4)) 4 = true
  strings : ∀ j str, strs[j]? = some str → ReadableString s (s.word (u32 (uvec + j * 4))) str

section Strings

variable {s : State} {a : Nat} {str : CStr}

theorem StringAt.ne_nul (h : StringAt s a str) {j : Nat} (hj : j < str.length) : s.mem (u32 (a + j)) ≠ 0 := by
  have hbyte := bytes_getElem? s a (str.length + 1) j (Nat.lt_succ_of_lt hj)
  rw [h.2, withNul, List.getElem?_append_left hj] at hbyte
  exact fun hz => h.1 (hz ▸ List.mem_of_getElem? hbyte)

theorem strlenLoop_valid {rounds i len : Nat} (h : strlenLoop s a rounds i = some len) :
    ∀ j, i ≤ j → j ≤ len → syscallRangeValid s (u32 (a + j)) 1 = true := by
  induction rounds generalizing i with
  | zero => cases h
  | succ rounds ih =>
      intro j hj hle
      unfold strlenLoop at h
      split at h
      · cases h
      · rename_i hvalid
        have hvalid : syscallRangeValid s (u32 (a + i)) 1 = true := by simpa using hvalid
        split at h
        · cases h
          exact Nat.le_antisymm hj hle ▸ hvalid
        · rcases Nat.eq_or_lt_of_le hj with rfl | hlt
          · exact hvalid
          · exact ih h j hlt hle

theorem strlenLoop_of_readable (h : ReadableString s a str) {rounds i : Nat} (hi : i ≤ str.length)
    (hrounds : str.length < i + rounds) : strlenLoop s a rounds i = some str.length := by
  induction rounds generalizing i with
  | zero => exact absurd hrounds (Nat.not_lt.mpr hi)
  | succ rounds ih =>
      rw [strlenLoop, h.valid i hi]
      rcases Nat.eq_or_lt_of_le hi with rfl | hlt
      · rw [h.string.nul]
        rfl
      · rw [if_neg (h.string.ne_nul hlt)]
        exact ih hlt (by omega)

/-- `exec_user_strlen` measures exactly the readable strings. -/
theorem execUserStrlen_eq_some {len : Nat} :
    execUserStrlen s a = some len ↔ ∃ str, ReadableString s a str ∧ str.length = len := by
  constructor
  · intro h
    obtain ⟨hstr, hshort⟩ := stringAt_of_strlen h
    have hlen := length_bytes s a len
    refine ⟨s.bytes a len, ⟨hstr, hlen.symm ▸ hshort, fun j hj => ?_⟩, hlen⟩
    exact strlenLoop_valid h j (Nat.zero_le _) (hlen ▸ hj)
  · rintro ⟨str, hread, rfl⟩
    exact strlenLoop_of_readable hread (Nat.zero_le _) (by simpa using hread.short)

end Strings

/-! ## The loop -/

/-- The next allocations succeed. -/
def NextBlocks (v : Vfs) (n : Nat) : Prop := ∀ k < n, v.mem.outcome (v.nextObj + k) = .block

section Loop

variable {s : State} {uvec rounds i : Nat} {v v' : Vfs} {vec vec' : Vec}

/-- A string is copied when there is a block for it. -/
theorem kmallocBytes_block {n : Nat} (h : NextBlocks v (n + 1)) {src : List UInt8} (hpos : 0 < src.length)
    (hmax : src.length ≤ heapSize - headerSize) :
    ∃ w, kmallocBytes v src = .ret (w, some v.nextObj) ∧ NextBlocks w n := by
  have hblock := h 0 (Nat.succ_pos n)
  rw [Nat.add_zero] at hblock
  obtain ⟨w, hw, hbuf, hobj, hmem⟩ : ∃ w, v.kmallocBuf src.length = .ret (w, some v.nextObj) ∧
      w.buf v.nextObj = some ⟨src.length, v.mem.junk v.nextObj⟩ ∧ w.nextObj = v.nextObj + 1 ∧ w.mem = v.mem := by
    refine ⟨Vfs.setBuf { v with nextObj := v.nextObj + 1 } v.nextObj ⟨src.length, v.mem.junk v.nextObj⟩, ?_,
      Function.update_self _ _ _, rfl, rfl⟩
    rw [Vfs.kmallocBuf, Vfs.kmalloc, if_neg (Nat.ne_of_gt hpos), if_neg (Nat.not_lt.mpr hmax), hblock]
    rfl
  refine ⟨w.setBuf v.nextObj (Buf.write ⟨src.length, v.mem.junk v.nextObj⟩ 0 src), ?_, fun k hk => ?_⟩
  · rw [kmallocBytes, hw, Exec.ret_bind]
    dsimp only
    rw [Vfs.storeBytes, if_neg (List.ne_nil_of_length_pos hpos), Vfs.loadBuf, hbuf]
    simp
  · have hnext := h (k + 1) (Nat.succ_lt_succ hk)
    rw [← Nat.add_assoc, Nat.add_right_comm] at hnext
    show w.mem.outcome (w.nextObj + k) = .block
    rw [hobj, hmem]
    exact hnext

theorem kmallocString_block {n a len : Nat} (h : NextBlocks v (n + 1)) (hlen : execUserStrlen s a = some len) :
    ∃ w, kmallocBytes v (s.bytes a (len + 1)) = .ret (w, some v.nextObj) ∧ NextBlocks w n := by
  have hshort := (stringAt_of_strlen hlen).2
  have hsize := length_bytes s a (len + 1)
  refine kmallocBytes_block h (hsize.symm ▸ Nat.succ_pos len) ?_
  unfold execMaxStrlen at hshort
  unfold heapSize headerSize
  omega

/-- The words and strings that a loop without a failure has been through. -/
theorem copyLoop_valid (hc : copyLoop s uvec rounds i v vec = .ret (v', vec', true)) :
    ∃ n ≤ rounds, vec'.entries.length = vec.entries.length + n ∧
      (∀ j < n, syscallRangeValid s (u32 (uvec + (i + j) * 4)) 4 = true ∧
        ∃ len, execUserStrlen s (s.word (u32 (uvec + (i + j) * 4))) = some len) ∧
      (n < rounds → syscallRangeValid s (u32 (uvec + (i + n) * 4)) 4 = true) := by
  induction rounds generalizing i v vec with
  | zero =>
      cases hc
      exact ⟨0, Nat.le_refl _, rfl, nofun, nofun⟩
  | succ rounds ih =>
      unfold copyLoop at hc
      split at hc
      · cases hc
      · rename_i hvalid
        have hvalid : syscallRangeValid s (u32 (uvec + i * 4)) 4 = true := by simpa using hvalid
        dsimp only at hc
        split at hc
        · cases hc
          exact ⟨0, Nat.zero_le _, rfl, nofun, fun _ => hvalid⟩
        · split at hc
          · cases hc
          · rename_i len hlen
            split at hc
            · cases hc
            · obtain ⟨⟨x, p⟩, _, hc⟩ := Exec.bind_eq_ret.mp hc
              cases p with
              | none => cases hc
              | some b =>
                  obtain ⟨n, hn, hcount, hwords, hend⟩ := ih hc
                  refine ⟨n + 1, Nat.succ_le_succ hn, ?_, fun j hj => ?_, fun hlt => ?_⟩
                  · rw [hcount, List.length_append, List.length_singleton, Nat.add_assoc, Nat.add_comm 1]
                  · cases j with
                    | zero => exact ⟨hvalid, len, hlen⟩
                    | succ j =>
                        rw [← Nat.add_assoc, Nat.add_right_comm]
                        exact hwords j (Nat.lt_of_succ_lt_succ hj)
                  · rw [← Nat.add_assoc, Nat.add_right_comm]
                    exact hend (Nat.lt_of_succ_lt_succ hlt)

/-- With memory to be had the loop ends. -/
theorem copyLoop_returns (s : State) (uvec i : Nat) (vec : Vec) (hblocks : NextBlocks v rounds) : ∃ q, copyLoop s uvec rounds i v vec = .ret q := by
  induction rounds generalizing i v vec with
  | zero => exact ⟨_, rfl⟩
  | succ rounds ih =>
      unfold copyLoop
      split
      · exact ⟨_, rfl⟩
      · dsimp only
        split
        · exact ⟨_, rfl⟩
        · split
          · exact ⟨_, rfl⟩
          · rename_i len hlen
            split
            · exact ⟨_, rfl⟩
            · obtain ⟨w, hw, hrest⟩ := kmallocString_block hblocks hlen
              rw [hw]
              exact ih _ _ hrest

/-- The loop goes through the entries `strs`, from the entry `i` on, to the
`NULL` behind them or to the end of its rounds. -/
theorem copyLoop_of_readable (uvec i : Nat) (vec : Vec) {strs : List CStr} (hblocks : NextBlocks v rounds) (hrounds : strs.length ≤ rounds)
    (hwords : ∀ j < strs.length + if strs.length < rounds then 1 else 0,
      syscallRangeValid s (u32 (uvec + (i + j) * 4)) 4 = true)
    (hpointers : ∀ j str, strs[j]? = some str → s.word (u32 (uvec + (i + j) * 4)) ≠ 0 ∧
      ReadableString s (s.word (u32 (uvec + (i + j) * 4))) str)
    (hend : s.word (u32 (uvec + (i + strs.length) * 4)) = 0)
    (htotal : vec.total + (strs.map fun str => str.length + 1).sum ≤ execMaxTotal) :
    ∃ w vec', copyLoop s uvec rounds i v vec = .ret (w, vec', true) ∧
      vec'.entries.length = vec.entries.length + strs.length := by
  induction strs generalizing i rounds v vec with
  | nil =>
      cases rounds with
      | zero => exact ⟨v, vec, rfl, rfl⟩
      | succ rounds =>
          have hvalid := hwords 0 (by simp)
          rw [Nat.add_zero] at hvalid
          rw [List.length_nil, Nat.add_zero] at hend
          refine ⟨v, vec, ?_, rfl⟩
          rw [copyLoop, hvalid]
          simp [hend]
  | cons str strs ih =>
      cases rounds with
      | zero => cases hrounds
      | succ rounds =>
          have hvalid := hwords 0 (by simp only [List.length_cons]; omega)
          obtain ⟨hne, hread⟩ := hpointers 0 str rfl
          rw [Nat.add_zero] at hvalid hne hread
          have hlen : execUserStrlen s (s.word (u32 (uvec + i * 4))) = some str.length :=
            execUserStrlen_eq_some.mpr ⟨str, hread, rfl⟩
          rw [List.map_cons, List.sum_cons] at htotal
          have hfit : ¬u32 (vec.total + str.length + 1) > execMaxTotal := by
            have hword : u32 (vec.total + str.length + 1) = vec.total + str.length + 1 :=
              u32_of_lt (by unfold execMaxTotal at htotal; omega)
            omega
          obtain ⟨w, hw, hrest⟩ := kmallocString_block hblocks hlen
          rw [copyLoop, hvalid]
          simp only [Bool.not_true, Bool.false_eq_true, if_false, hne, hlen, hfit, hw, Exec.ret_bind]
          have hshift : ∀ j, uvec + (i + 1 + j) * 4 = uvec + (i + (j + 1)) * 4 := fun j => by omega
          obtain ⟨w', vec', hloop, hcount⟩ := ih (i + 1)
            ⟨vec.entries ++ [⟨v.nextObj, str.length⟩], vec.total + str.length + 1⟩ hrest (Nat.le_of_succ_le_succ hrounds)
            (fun j hj => hshift j ▸ hwords (j + 1) (by
              simp only [List.length_cons, Nat.add_lt_add_iff_right]
              omega))
            (fun j str hj => hshift j ▸ hpointers (j + 1) str hj) (hshift strs.length ▸ hend)
            (by dsimp only; omega)
          refine ⟨w', vec', hloop, ?_⟩
          rw [hcount, List.length_append, List.length_singleton, List.length_cons]
          omega

end Loop

/-! ## The vectors -/

section Vectors

variable {s : State} {uvec : Nat} {v w : Vfs} {vec : Vec} {strs : List CStr}

theorem copy_valid (hne : uvec ≠ 0) (hc : execCopyVec s v uvec 64 = .ret (w, some vec)) :
    (∀ j ≤ vec.entries.length, syscallRangeValid s (u32 (uvec + j * 4)) 4 = true) ∧
      ∀ j < vec.entries.length, ∃ len, execUserStrlen s (s.word (u32 (uvec + j * 4))) = some len := by
  rw [execCopyVec, if_neg hne] at hc
  obtain ⟨⟨x, vec', ok⟩, hloop, hc⟩ := Exec.bind_eq_ret.mp hc
  dsimp only at hc
  split at hc
  · rename_i hok
    cases hc
    obtain ⟨rfl, hend⟩ := hok
    obtain ⟨n, hn, hlen, hwords, hlast⟩ := copyLoop_valid hloop
    rw [List.length_nil, Nat.zero_add] at hlen
    simp only [Nat.zero_add] at hwords hlast
    rw [hlen]
    refine ⟨fun j hj => ?_, fun j hj => (hwords j hj).2⟩
    rcases Nat.lt_or_ge j n with hlt | hge
    · exact (hwords j hlt).1
    · obtain rfl := Nat.le_antisymm hj hge
      rcases Nat.eq_or_lt_of_le hn with rfl | hlt
      · rw [endOk, if_pos hlen] at hend
        exact (of_decide_eq_true hend).1
      · exact hlast hlt
  · obtain ⟨_, _, hc⟩ := Exec.bind_eq_ret.mp hc
    cases hc

/-- What was copied is within the limits. -/
theorem accepted_of_copy (hv : Settled v) (hc : execCopyVec s v uvec 64 = .ret (w, some vec)) :
    ∃ strs, AcceptedVector s uvec strs ∧ Taken s uvec w vec strs := by
  obtain ⟨_, _, strs, htaken⟩ := execCopyVec_spec (.refl hv) hc
  have hlen := htaken.accepted.length
  have hvec := htaken.vector
  refine ⟨strs, ⟨htaken.vector, htaken.accepted.count, htaken.accepted.total ▸ htaken.room, fun hne => ?_,
    fun j str hj => ?_⟩, htaken⟩
  · exact hlen ▸ (copy_valid hne hc).1
  · by_cases hne : uvec = 0
    · rw [VectorAt, if_pos hne] at hvec
      rw [hvec] at hj
      cases hj
    · rw [VectorAt, if_neg hne] at hvec
      obtain ⟨hlt, -⟩ := List.getElem?_eq_some_iff.mp hj
      obtain ⟨len, hmeasured⟩ := (copy_valid hne hc).2 j (hlen.symm ▸ hlt)
      obtain ⟨str', hread, -⟩ := execUserStrlen_eq_some.mp hmeasured
      exact hread.string.unique (hvec.1 j str hj).2 ▸ hread

/-- What is within the limits is copied. -/
theorem copy_of_accepted (hblocks : NextBlocks v 64) (h : AcceptedVector s uvec strs) :
    ∃ w vec, execCopyVec s v uvec 64 = .ret (w, some vec) := by
  unfold execCopyVec
  split
  · exact ⟨_, _, rfl⟩
  · rename_i hne
    have hvec := h.vector
    rw [VectorAt, if_neg hne] at hvec
    have hcount := h.count
    obtain ⟨w, vec, hloop, hlen⟩ := copyLoop_of_readable uvec 0 ⟨[], 0⟩ hblocks hcount
      (fun j hj => by
        rw [Nat.zero_add]
        exact h.words hne j (by split at hj <;> omega))
      (fun j str hj => by
        rw [Nat.zero_add]
        exact ⟨(hvec.1 j str hj).1, h.strings j str hj⟩)
      (by rw [Nat.zero_add]; exact hvec.2)
      (by rw [Nat.zero_add]; exact h.total)
    refine ⟨w, vec, ?_⟩
    rw [hloop, Exec.ret_bind]
    dsimp only
    rw [if_pos]
    refine ⟨rfl, ?_⟩
    rw [List.length_nil, Nat.zero_add] at hlen
    unfold endOk
    split
    · rename_i hfull
      have h64 : strs.length = 64 := hlen.symm.trans hfull
      have hword := h.words hne 64 (by omega)
      have hnull := hvec.2
      rw [h64] at hnull
      exact decide_eq_true ⟨hword, hnull⟩
    · rfl

/-- The buffers that are held can be given back. -/
theorem execFreeVec_returns {u : Vfs} {entries : List KString} {l : List Nat} (h : Holding u v (bufs entries ++ l)) :
    ∃ w, execFreeVec v entries = .ret w := by
  induction entries generalizing v with
  | nil => exact ⟨v, rfl⟩
  | cons k entries ih =>
      have hmem : k.buf ∈ bufs (k :: entries) ++ l := List.mem_cons_self
      obtain ⟨m, hm⟩ := Option.isSome_iff_exists.mp ((h.live k.buf (h.fresh _ hmem).1).mpr hmem)
      have hfree : kfreeBuf v k.buf = .ret (v.freeBuf (some k.buf)) := by rw [kfreeBuf, hm]
      obtain ⟨w, hw⟩ := ih (kfreeBuf_spec h hfree).1
      exact ⟨w, by rw [execFreeVec, hfree, Exec.ret_bind, hw]⟩

theorem execCopyVec_returns (s : State) (uvec : Nat) (hv : Settled v) (hblocks : NextBlocks v 64) :
    ∃ q, execCopyVec s v uvec 64 = .ret q := by
  unfold execCopyVec
  split
  · exact ⟨_, rfl⟩
  · obtain ⟨⟨x, vec, ok⟩, hloop⟩ := copyLoop_returns s uvec 0 ⟨[], 0⟩ hblocks
    have hstart : Copied s uvec v v v [] ⟨[], 0⟩ [] :=
      ⟨.refl hv, ⟨rfl, fun _ _ => rfl, Nat.le_refl _⟩, nofun, nofun, nofun, nofun, .nil, rfl, rfl, Nat.zero_le _⟩
    obtain ⟨strs, hcopied, -, -⟩ := copyLoop_spec hstart hloop
    obtain ⟨w, hw⟩ := execFreeVec_returns hcopied.holding
    rw [hloop, Exec.ret_bind]
    dsimp only
    split
    · exact ⟨_, rfl⟩
    · rw [hw]
      exact ⟨_, rfl⟩

/-- A vector that is not taken costs nothing, for whatever reason. -/
theorem heapUsed_of_refused (hv : Settled v) (hc : execCopyVec s v uvec 64 = .ret (w, none)) (blockSize : Nat → Nat) :
    heapUsed blockSize w = heapUsed blockSize v := by
  obtain ⟨hkeep, hhold⟩ := execCopyVec_spec (.refl hv) hc
  refine Restored.heapUsed hv ⟨hhold, ?_⟩
  rw [hkeep.node]
  exact .refl hv.table

end Vectors

end LiteBSD.Execve
