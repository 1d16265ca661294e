/-
# `LiteBSD.Execve.Vectors` — the vectors that `execve` takes from user memory

`exec_copy_vec` either fails, and then every buffer it made is free again, or
its buffers hold the strings of the vector, one after the other, and their
number, their lengths and their total are within the caps.
-/
import LiteBSD.Execve.Blocks
import LiteBSD.Execve.Stack

namespace LiteBSD.Execve

/-! ## What is in user memory -/

/-- The NUL-terminated string at `a`. -/
def StringAt (s : State) (a : Nat) (str : CStr) : Prop :=
  0 ∉ str ∧ s.bytes a (str.length + 1) = withNul str

/-- The pointers from `uvec` on are to these strings. -/
def PointersAt (s : State) (uvec : Nat) (strs : List CStr) : Prop :=
  ∀ (j : Nat) (str : CStr), strs[j]? = some str →
    s.word (u32 (uvec + j * 4)) ≠ 0 ∧ StringAt s (s.word (u32 (uvec + j * 4))) str

/-- The vector at `uvec`, up to its `NULL`; no vector is an empty one. -/
def VectorAt (s : State) (uvec : Nat) (strs : List CStr) : Prop :=
  if uvec = 0 then strs = []
  else PointersAt s uvec strs ∧ s.word (u32 (uvec + strs.length * 4)) = 0

/-- These buffers hold these strings. -/
def Holds (v : Vfs) (entries : List KString) (strs : List CStr) : Prop :=
  List.Forall₂ (fun k str => Stores v k.buf (withNul str)) entries strs

theorem Holds.keep {v v' : Vfs} {entries : List KString} {strs : List CStr} (h : Holds v entries strs)
    (hsame : ∀ b ∈ bufs entries, v'.buf b = v.buf b) : Holds v' entries strs := by
  induction h with
  | nil => exact .nil
  | cons hk _ ih =>
      obtain ⟨hfirst, hrest⟩ := List.forall_mem_cons.mp hsame
      exact .cons (hk.keep hfirst) (ih hrest)

section Strings

variable {s : State}

/-- `exec_user_strlen` stops at the first NUL. -/
theorem strlenLoop_spec {a rounds i len : Nat} (h : strlenLoop s a rounds i = some len) :
    i ≤ len ∧ len < i + rounds ∧ s.mem (u32 (a + len)) = 0 ∧
      ∀ j, i ≤ j → j < len → s.mem (u32 (a + j)) ≠ 0 := by
  induction rounds generalizing i with
  | zero => cases h
  | succ rounds ih =>
      unfold strlenLoop at h
      split at h
      · cases h
      · split at h
        · rename_i hnul
          cases h
          exact ⟨Nat.le_refl _, by omega, hnul, fun j hj hlt => absurd hlt (Nat.not_lt.mpr hj)⟩
        · rename_i hnul
          obtain ⟨hle, hlt, hend, hbefore⟩ := ih h
          refine ⟨by omega, by omega, hend, fun j hj hjlt => ?_⟩
          rcases Nat.eq_or_lt_of_le hj with rfl | hj
          · exact hnul
          · exact hbefore j hj hjlt

theorem length_bytes (s : State) (a n : Nat) : (s.bytes a n).length = n := by
  rw [State.bytes, List.length_map, List.length_range]

theorem bytes_succ (s : State) (a n : Nat) : s.bytes a (n + 1) = s.bytes a n ++ [s.mem (u32 (a + n))] := by
  rw [State.bytes, List.range_succ, List.map_append]
  rfl

theorem stringAt_of_strlen {a len : Nat} (h : execUserStrlen s a = some len) :
    StringAt s a (s.bytes a len) ∧ len < execMaxStrlen := by
  obtain ⟨_, hlt, hend, hbefore⟩ := strlenLoop_spec h
  refine ⟨⟨fun hmem => ?_, ?_⟩, by rwa [Nat.zero_add] at hlt⟩
  · obtain ⟨j, hj, hz⟩ := List.mem_map.mp hmem
    exact hbefore j (Nat.zero_le _) (List.mem_range.mp hj) hz
  · rw [length_bytes, bytes_succ, hend]
    rfl

end Strings

/-! ## Copying -/

section Copying

variable {s : State} {v u w w' : Vfs} {l : List Nat} {uvec : Nat} {vec : Vec} {strs : List CStr}

/-- Where the loop of `exec_copy_vec` has got to: it started with `u`. -/
structure Copied (s : State) (uvec : Nat) (v u w : Vfs) (l : List Nat) (vec : Vec) (strs : List CStr) : Prop where
  holding : Holding v w (bufs vec.entries ++ l)
  keeps : Keeps u w
  new : ∀ b ∈ bufs vec.entries, u.nextObj ≤ b
  pointers : PointersAt s uvec strs
  short : ∀ str ∈ strs, str.length < execMaxStrlen
  noNul : ∀ str ∈ strs, (0 : UInt8) ∉ str
  holds : Holds w vec.entries strs
  lens : vec.entries.map KString.len = strs.map List.length
  total : vec.total = (strs.map fun str => str.length + 1).sum
  room : vec.total ≤ execMaxTotal

theorem Copied.length (h : Copied s uvec v u w l vec strs) : vec.entries.length = strs.length := by
  have hlen := congrArg List.length h.lens
  rwa [List.length_map, List.length_map] at hlen

theorem Copied.keep (h : Copied s uvec v u w l vec strs) (hk : Keeps w w')
    (hh : Holding v w' (bufs vec.entries ++ l)) : Copied s uvec v u w' l vec strs :=
  ⟨hh, h.keeps.trans hk, h.new, h.pointers, h.short, h.noNul,
    h.holds.keep fun b hb => hk.buf b (h.holding.fresh b (List.mem_append_left l hb)).2, h.lens, h.total, h.room⟩

/-- One more string. -/
theorem Copied.push (h : Copied s uvec v u w l vec strs) {a b len : Nat}
    (ha : s.word (u32 (uvec + strs.length * 4)) = a) (hne : a ≠ 0) (hlen : execUserStrlen s a = some len)
    (hroom : vec.total + len + 1 ≤ execMaxTotal) (hk : kmallocBytes w (s.bytes a (len + 1)) = .ret (w', some b)) :
    Copied s uvec v u w' l ⟨vec.entries ++ [⟨b, len⟩], vec.total + len + 1⟩ (strs ++ [s.bytes a len]) := by
  obtain ⟨hstr, hshort⟩ := stringAt_of_strlen hlen
  obtain ⟨hkeep, hhold, hge, hstores⟩ := kmallocBytes_spec h.holding hk
  have hbytes : s.bytes a (len + 1) = withNul (s.bytes a len) := by
    have := hstr.2
    rwa [length_bytes] at this
  have hperm : (b :: (bufs vec.entries ++ l)).Perm (bufs (vec.entries ++ [⟨b, len⟩]) ++ l) := by
    rw [bufs, bufs, List.map_append, List.append_assoc]
    exact List.perm_middle.symm
  have hold : ∀ x ∈ bufs vec.entries, w'.buf x = w.buf x := fun x hx =>
    hkeep.buf x (h.holding.fresh x (List.mem_append_left l hx)).2
  have hsum : vec.total + len + 1 = ((strs ++ [s.bytes a len]).map fun str => str.length + 1).sum := by
    rw [List.map_append, List.sum_append, ← h.total]
    simp [length_bytes, Nat.add_assoc]
  have hall : ∀ {P : CStr → Prop}, (∀ str ∈ strs, P str) → P (s.bytes a len) →
      ∀ str ∈ strs ++ [s.bytes a len], P str := by
    intro P hstrs hlast str hmem
    rcases List.mem_append.mp hmem with hmem | hmem
    · exact hstrs str hmem
    · exact List.mem_singleton.mp hmem ▸ hlast
  refine ⟨hhold.perm hperm, h.keeps.trans hkeep, fun x hx => ?_, fun j str hj => ?_, hall h.short ?_,
    hall h.noNul hstr.1, ?_, ?_, hsum, hroom⟩
  · rw [bufs, List.map_append, List.mem_append] at hx
    rcases hx with hx | hx
    · exact h.new x hx
    · obtain rfl := List.mem_singleton.mp hx
      exact Nat.le_trans h.keeps.supply hge
  · rcases Nat.lt_or_ge j strs.length with hlt | hge
    · rw [List.getElem?_append_left hlt] at hj
      exact h.pointers j str hj
    · rw [List.getElem?_append_right hge] at hj
      obtain ⟨hj0, rfl⟩ := List.getElem?_eq_some_iff.mp hj
      have hj1 : j = strs.length := by
        rw [List.length_singleton] at hj0
        omega
      subst hj1
      rw [ha]
      exact ⟨hne, by simpa using hstr⟩
  · rw [length_bytes]
    exact hshort
  · exact List.rel_append (h.holds.keep hold) (.cons (hbytes ▸ hstores) .nil)
  · rw [List.map_append, List.map_append, h.lens, List.map_singleton, List.map_singleton, length_bytes]

/-- What the loop leaves: what it copied, and with `ok` that is a vector up
to its `NULL` or as far as there are rounds. -/
theorem copyLoop_spec {rounds : Nat} {ok : Bool} {vec' : Vec} (h : Copied s uvec v u w l vec strs)
    (hc : copyLoop s uvec rounds strs.length w vec = .ret (w', vec', ok)) :
    ∃ strs', Copied s uvec v u w' l vec' strs' ∧ strs'.length ≤ strs.length + rounds ∧
      (ok = true → strs'.length = strs.length + rounds ∨ s.word (u32 (uvec + strs'.length * 4)) = 0) := by
  induction rounds generalizing w vec strs with
  | zero =>
      cases hc
      exact ⟨strs, h, Nat.le_refl _, fun _ => .inl rfl⟩
  | succ rounds ih =>
      unfold copyLoop at hc
      split at hc
      · cases hc
        exact ⟨strs, h, Nat.le_add_right _ _, nofun⟩
      · dsimp only at hc
        split at hc
        · rename_i hnull
          cases hc
          exact ⟨strs, h, Nat.le_add_right _ _, fun _ => .inr hnull⟩
        · rename_i hne
          split at hc
          · cases hc
            exact ⟨strs, h, Nat.le_add_right _ _, nofun⟩
          · rename_i len hlen
            have hshort := (stringAt_of_strlen hlen).2
            split at hc
            · cases hc
              exact ⟨strs, h, Nat.le_add_right _ _, nofun⟩
            · rename_i hfit
              have hroom : vec.total + len + 1 ≤ execMaxTotal := by
                have hword : u32 (vec.total + len + 1) = vec.total + len + 1 := by
                  have := h.room
                  unfold execMaxTotal execMaxStrlen at *
                  exact u32_of_lt (by omega)
                rw [hword] at hfit
                exact Nat.le_of_not_lt hfit
              obtain ⟨⟨x, p⟩, hx, hc⟩ := Exec.bind_eq_ret.mp hc
              cases p with
              | none =>
                  cases hc
                  obtain ⟨hkeep, hhold⟩ := kmallocBytes_spec h.holding hx
                  exact ⟨strs, h.keep hkeep hhold, Nat.le_add_right _ _, nofun⟩
              | some b =>
                  have hpush := h.push rfl hne hlen hroom hx
                  have hc' : copyLoop s uvec rounds (strs ++ [s.bytes (s.word (u32 (uvec + strs.length * 4)))
                      len]).length x ⟨vec.entries ++ [⟨b, len⟩], vec.total + len + 1⟩ = .ret (w', vec', ok) := by
                    rw [List.length_append, List.length_singleton]
                    exact hc
                  obtain ⟨strs', hcopied, hle, hend⟩ := ih hpush hc'
                  rw [List.length_append, List.length_singleton] at hle hend
                  refine ⟨strs', hcopied, by omega, fun hok => (hend hok).imp_left fun he => by omega⟩

/-- A vector that was taken stands for what user memory has. -/
structure Taken (s : State) (uvec : Nat) (w : Vfs) (vec : Vec) (strs : List CStr) : Prop where
  vector : VectorAt s uvec strs
  accepted : vec.Accepted strs
  holds : Holds w vec.entries strs
  room : vec.total ≤ execMaxTotal

theorem execCopyVec_spec (h : Holding v u l) {p : Option Vec} (hc : execCopyVec s u uvec 64 = .ret (w', p)) :
    Keeps u w' ∧ match p with
      | none => Holding v w' l
      | some vec => Holding v w' (bufs vec.entries ++ l) ∧ ∃ strs, Taken s uvec w' vec strs := by
  unfold execCopyVec at hc
  split at hc
  · rename_i hnull
    cases hc
    refine ⟨⟨rfl, fun _ _ => rfl, Nat.le_refl _⟩, h, [], ?_, ⟨?_, nofun, nofun, rfl, rfl⟩, .nil, Nat.zero_le _⟩
    · rw [VectorAt, if_pos hnull]
    · exact Nat.zero_le _
  · rename_i hvec
    have hstart : Copied s uvec v u u l ⟨[], 0⟩ [] :=
      ⟨h, ⟨rfl, fun _ _ => rfl, Nat.le_refl _⟩, nofun, nofun, nofun, nofun, .nil, rfl, rfl, Nat.zero_le _⟩
    obtain ⟨⟨w, vec, ok⟩, hw, hc⟩ := Exec.bind_eq_ret.mp hc
    obtain ⟨strs, hcopied, hle, hend⟩ := copyLoop_spec hstart hw
    rw [List.length_nil, Nat.zero_add] at hle hend
    dsimp only at hc
    split at hc
    · rename_i hok
      cases hc
      refine ⟨hcopied.keeps, hcopied.holding, strs, ?_, ⟨hle, hcopied.short, hcopied.noNul, hcopied.lens,
        hcopied.total⟩, hcopied.holds, hcopied.room⟩
      rw [VectorAt, if_neg hvec]
      refine ⟨hcopied.pointers, ?_⟩
      rcases hend hok.1 with hfull | hnull
      · -- the loop saw no `NULL`, so it was looked for behind the last entry
        have hcheck := hok.2
        rw [endOk, if_pos (hcopied.length.trans hfull)] at hcheck
        rw [hfull]
        exact (of_decide_eq_true hcheck).2
      · exact hnull
    · obtain ⟨x, hx, hc⟩ := Exec.bind_eq_ret.mp hc
      cases hc
      obtain ⟨hhold, hfreed⟩ := execFreeVec_spec hcopied.holding hx
      refine ⟨⟨hfreed.node.trans hcopied.keeps.node, fun b hb => ?_, hfreed.supply ▸ hcopied.keeps.supply⟩, hhold⟩
      refine (hfreed.buf b fun hmem => ?_).trans (hcopied.keeps.buf b hb)
      exact absurd (hcopied.new b hmem) (Nat.not_le.mpr hb)

end Copying

end LiteBSD.Execve
