/-
# `LiteBSD.Vfs.Resolve` — paths that `vfs_resolve_path` leaves alone

A path made of proper names comes out as it went in, whatever the directory
of the caller is: a name is not empty, has no slash, is neither `.` nor `..`,
and is at most 63 bytes long, which is what the walk takes for one component.

The paths of the synthetic entries are of this kind.  Those of a task are made
with its pid in decimal, and `parse_pid` reads that back.
-/
import LiteBSD.Vfs.Sysinfo

namespace LiteBSD

/-- A name the walk takes as one component. -/
structure ProperName (name : CStr) : Prop where
  ne_nil : name ≠ []
  no_slash : slash ∉ name
  short : name.length ≤ componentMax
  ne_dot : name ≠ [dot]
  ne_dots : name ≠ [dot, dot]

instance (name : CStr) : Decidable (ProperName name) :=
  decidable_of_iff (name ≠ [] ∧ slash ∉ name ∧ name.length ≤ componentMax ∧ name ≠ [dot] ∧
    name ≠ [dot, dot]) ⟨fun h => ⟨h.1, h.2.1, h.2.2.1, h.2.2.2.1, h.2.2.2.2⟩,
    fun h => ⟨h.ne_nil, h.no_slash, h.short, h.ne_dot, h.ne_dots⟩⟩

/-- The absolute path with these names. -/
def pathOf : List CStr → CStr
  | [] => []
  | name :: names => slash :: (name ++ pathOf names)

section Walk

variable {name temp : CStr} {names : List CStr}

theorem pathOf_append (l l' : List CStr) : pathOf (l ++ l') = pathOf l ++ pathOf l' := by
  induction l with
  | nil => rfl
  | cons name l ih => rw [List.cons_append, pathOf, pathOf, ih, List.cons_append, List.append_assoc]

theorem pathOf_head (names : List CStr) : pathOf names = [] ∨ (pathOf names).head? = some slash := by
  cases names with
  | nil => exact .inl rfl
  | cons name names => exact .inr rfl

/-- What ends in a name does not end in a slash. -/
theorem ProperName.last (h : ProperName name) (temp : CStr) :
    (temp ++ name)[(temp ++ name).length - 1]? ≠ some slash := by
  intro he
  rw [← List.getLast?_eq_getElem?, List.getLast?_append_of_ne_nil _ h.ne_nil] at he
  exact h.no_slash (List.mem_of_getLast? he)

/-- One name, with room for it. -/
theorem pushComponent_name (hlast : temp[temp.length - 1]? ≠ some slash)
    (hroom : temp.length + 1 + name.length ≤ 255) :
    pushComponent temp name = temp ++ slash :: name := by
  have hlt : temp.length < pathMax - 1 := by
    show temp.length < 255
    omega
  unfold pushComponent
  rw [if_pos (.inr hlast), if_pos hlt]
  have htake : name.take (pathMax - 1 - (temp ++ [slash]).length) = name := by
    refine List.take_of_length_le ?_
    show name.length ≤ 255 - (temp ++ [slash]).length
    rw [List.length_append, List.length_singleton]
    omega
  dsimp only
  rw [htake, List.append_assoc, List.singleton_append]

theorem pushComponent_root (hroom : 1 + name.length ≤ 255) :
    pushComponent [slash] name = slash :: name := by
  have htake : name.take 254 = name := List.take_of_length_le (by omega)
  show [slash] ++ name.take 254 = slash :: name
  rw [htake, List.singleton_append]

/-- A round of the walk at the start of a name. -/
theorem resolveLoop_round {fuel : Nat} {l rest : CStr} (h : ProperName name)
    (hlead : ∀ c ∈ l, c = slash) (hrest : rest = [] ∨ rest.head? = some slash) :
    resolveLoop (fuel + 1) temp (l ++ (name ++ rest)) =
      resolveLoop fuel (pushComponent temp name) rest := by
  obtain ⟨b, s, rfl⟩ := List.exists_cons_of_ne_nil h.ne_nil
  have hb : b ≠ slash := fun he => h.no_slash (he ▸ List.mem_cons_self)
  have hdrop : (l ++ (b :: s ++ rest)).dropWhile (· = slash) = b :: s ++ rest := by
    rw [List.dropWhile_append_of_pos fun c hc => decide_eq_true (hlead c hc), List.cons_append,
      List.dropWhile_cons_of_neg (by simpa using hb)]
  have htake : ((b :: s ++ rest).takeWhile (· ≠ slash)).take componentMax = b :: s := by
    rw [takeWhile_text h.no_slash hrest, List.take_of_length_le h.short]
  have hne : b :: s ++ rest ≠ [] := List.cons_ne_nil _ _
  simp only [resolveLoop, hdrop, htake, if_neg hne, if_neg h.ne_dot, if_neg h.ne_dots,
    List.drop_left]

/-- The walk over proper names, with something behind them. -/
theorem resolveLoop_names (hn : ∀ name ∈ names, ProperName name) {rest : CStr}
    (hrest : rest = [] ∨ rest.head? = some slash) (fuel : Nat)
    (hlast : temp[temp.length - 1]? ≠ some slash) (hroom : temp.length + (pathOf names).length ≤ 255) :
    resolveLoop (fuel + names.length) temp (pathOf names ++ rest) =
      resolveLoop fuel (temp ++ pathOf names) rest := by
  induction names generalizing temp with
  | nil => rw [pathOf, List.append_nil, List.nil_append, List.length_nil, Nat.add_zero]
  | cons name names ih =>
      have hname := hn name List.mem_cons_self
      rw [pathOf, List.length_cons, List.length_append] at hroom
      have hround : resolveLoop (fuel + names.length + 1) temp
            ([slash] ++ (name ++ (pathOf names ++ rest))) =
          resolveLoop (fuel + names.length) (pushComponent temp name) (pathOf names ++ rest) := by
        refine resolveLoop_round hname (fun c hc => List.mem_singleton.mp hc) ?_
        cases names with
        | nil => exact hrest
        | cons _ _ => exact .inr rfl
      rw [List.singleton_append] at hround
      have hpush : pushComponent temp name = temp ++ slash :: name :=
        pushComponent_name hlast (by omega)
      have hend := hname.last (temp ++ [slash])
      rw [List.append_assoc, List.singleton_append] at hend
      have hlen : (temp ++ slash :: name).length + (pathOf names).length ≤ 255 := by
        rw [List.length_append, List.length_cons]
        omega
      have hih := ih (fun c hc => hn c (List.mem_cons_of_mem _ hc)) hend hlen
      rw [List.length_cons, ← Nat.add_assoc, pathOf, List.cons_append, List.append_assoc, hround, hpush,
        hih, List.append_assoc, List.cons_append]

theorem length_pathOf (hn : ∀ name ∈ names, ProperName name) : names.length ≤ (pathOf names).length := by
  induction names with
  | nil => exact Nat.le_refl _
  | cons name names ih =>
      have := ih fun c hc => hn c (List.mem_cons_of_mem _ hc)
      rw [pathOf, List.length_cons, List.length_cons, List.length_append]
      omega

/-- A directory's path. -/
def dirPath (names : List CStr) : CStr := if names = [] then [slash] else pathOf names

theorem resolveLoop_nil (fuel : Nat) (temp : CStr) : resolveLoop fuel temp [] = temp := by
  cases fuel <;> rfl

/-- The walk from the root over proper names, with something behind them;
`fuel` is what is left for that. -/
theorem resolveLoop_dirPath (hn : ∀ name ∈ names, ProperName name) {rest : CStr}
    (hrest : rest = [] ∨ rest.head? = some slash) (fuel : Nat)
    (hroom : (dirPath names).length ≤ 255) :
    resolveLoop (fuel + names.length) [slash] ((pathOf names ++ rest).drop 1) =
      resolveLoop fuel (dirPath names) (if names = [] then rest.drop 1 else rest) := by
  cases names with
  | nil => rfl
  | cons name names =>
      have hname := hn name List.mem_cons_self
      rw [dirPath, if_neg (List.cons_ne_nil _ _), pathOf, List.length_cons, List.length_append] at hroom
      have hround : resolveLoop (fuel + names.length + 1) [slash] (name ++ (pathOf names ++ rest)) =
          resolveLoop (fuel + names.length) (pushComponent [slash] name) (pathOf names ++ rest) := by
        refine resolveLoop_round hname (l := []) (fun c hc => by cases hc) ?_
        cases names with
        | nil => exact hrest
        | cons _ _ => exact .inr rfl
      have hlen : (slash :: name).length + (pathOf names).length ≤ 255 := by
        rw [List.length_cons]
        omega
      have hnames := resolveLoop_names (fun c hc => hn c (List.mem_cons_of_mem _ hc)) hrest fuel
        (hname.last [slash]) hlen
      rw [dirPath, if_neg (List.cons_ne_nil _ _), if_neg (List.cons_ne_nil _ _), List.length_cons,
        ← Nat.add_assoc, pathOf, List.cons_append, List.drop_succ_cons, List.drop_zero,
        List.append_assoc, hround, pushComponent_root (by omega)]
      exact hnames

/-- The resolution of an absolute path is what the walk over it leaves. -/
theorem vfsResolvePath_absolute {cwd path : CStr} (hhead : path.head? = some slash)
    (hlen : (resolveLoop path.length [slash] (path.drop 1)).length ≤ 255) :
    vfsResolvePath cwd path = if resolveLoop path.length [slash] (path.drop 1) = [] then [slash]
      else resolveLoop path.length [slash] (path.drop 1) := by
  cases path with
  | nil => cases hhead
  | cons b path =>
      cases hhead
      unfold vfsResolvePath
      rw [if_neg (List.cons_ne_nil _ _)]
      have hstart : resolveStart cwd (slash :: path) = ([slash], path) := rfl
      rw [hstart]
      dsimp only
      rw [List.drop_succ_cons, List.drop_zero] at hlen ⊢
      rw [List.take_of_length_le]
      split
      · decide
      · exact hlen

/-- A path of proper names, of a length the buffers hold, resolves to
itself. -/
theorem vfsResolvePath_pathOf (cwd : CStr) (hne : names ≠ []) (hn : ∀ name ∈ names, ProperName name)
    (hlen : (pathOf names).length ≤ 255) : vfsResolvePath cwd (pathOf names) = pathOf names := by
  have hdir : dirPath names = pathOf names := if_neg hne
  have hhead : (pathOf names).head? = some slash := by
    cases names with
    | nil => exact absurd rfl hne
    | cons _ _ => rfl
  have hwalk := resolveLoop_dirPath hn (.inl rfl) ((pathOf names).length - names.length)
    (hdir ▸ hlen)
  rw [Nat.sub_add_cancel (length_pathOf hn), if_neg hne, resolveLoop_nil, List.append_nil, hdir] at hwalk
  rw [vfsResolvePath_absolute hhead (by rw [hwalk]; exact hlen), hwalk, if_neg]
  intro hnil
  rw [hnil] at hhead
  cases hhead

/-! ### Stepping back -/

/-- The search for the slash before the last name. -/
theorem trimName_name {p rest : CStr} (hname : slash ∉ name) :
    trimName (p ++ slash :: name ++ rest) (p.length + 1 + name.length) = p.length + 1 := by
  have hgo : ∀ k ≤ name.length,
      trimName (p ++ slash :: name ++ rest) (p.length + 1 + k) = p.length + 1 := by
    intro k hk
    induction k with
    | zero =>
        cases hp : p.length with
        | zero => rfl
        | succ m =>
            have hat : (p ++ slash :: name ++ rest)[m + 1]? = some slash := by
              rw [List.append_assoc, ← hp, List.getElem?_append_right (Nat.le_refl _), Nat.sub_self]
              rfl
            rw [Nat.add_zero, trimName, if_neg (not_not.mpr hat)]
    | succ k ih =>
        have hidx : p.length + 1 + (k + 1) = p.length + k + 2 := by omega
        have hat : (p ++ slash :: name ++ rest)[p.length + k + 1]? = name[k]? := by
          rw [List.append_assoc, Nat.add_assoc, List.getElem?_append_right (Nat.le_add_right _ _),
            Nat.add_sub_cancel_left, List.cons_append, List.getElem?_cons_succ,
            List.getElem?_append_left hk]
        have hne : name[k]? ≠ some slash := fun he => hname (List.mem_of_getElem? he)
        rw [hidx, trimName, hat, if_pos hne]
        have hback : p.length + k + 1 = p.length + 1 + k := by omega
        rw [hback]
        exact ih (Nat.le_of_succ_le hk)
  exact hgo name.length (Nat.le_refl _)

/-- The component `..` takes the last name away, with the slash behind it if
there is one. -/
theorem popComponent_name {p tail : CStr} (hne : name ≠ []) (hname : slash ∉ name)
    (htail : tail = [] ∨ tail = [slash]) :
    popComponent (p ++ slash :: name ++ tail) = if p = [] then [slash] else p := by
  have hpos := List.length_pos_iff.mpr hne
  have hlen : (p ++ slash :: name ++ tail).length = p.length + 1 + name.length + tail.length := by
    simp only [List.length_append, List.length_cons]
    omega
  -- a slash at the end is dropped first
  have hend : (if (p ++ slash :: name ++ tail)[(p ++ slash :: name ++ tail).length - 1]? = some slash
      then (p ++ slash :: name ++ tail).length - 1 else (p ++ slash :: name ++ tail).length) =
      p.length + 1 + name.length := by
    rcases htail with rfl | rfl
    · rw [if_neg, hlen, List.length_nil, Nat.add_zero]
      rw [← List.getLast?_eq_getElem?, List.append_nil, List.getLast?_append_of_ne_nil _
        (List.cons_ne_nil _ _), List.getLast?_cons_of_ne_nil hne]
      exact fun he => hname (List.mem_of_getLast? he)
    · rw [if_pos, hlen, List.length_singleton, Nat.add_sub_cancel]
      rw [← List.getLast?_eq_getElem?, List.getLast?_append_of_ne_nil _ (List.cons_ne_nil _ _)]
      rfl
  unfold popComponent
  dsimp only
  rw [if_pos (by omega), hend, trimName_name hname]
  cases p with
  | nil => rfl
  | cons b p =>
      have hat : (b :: p ++ slash :: name ++ tail)[(b :: p).length + 1 - 1]? = some slash := by
        rw [Nat.add_sub_cancel, List.append_assoc, List.getElem?_append_right (Nat.le_refl _),
          Nat.sub_self]
        rfl
      rw [if_pos ⟨by simp, hat⟩, if_neg (List.cons_ne_nil _ _), Nat.add_sub_cancel, List.append_assoc,
        List.take_left]

end Walk

/-! ## The paths of the entries -/

def synthPidToDec (pid : Nat) : CStr := if pid = 0 then [48] else (digitsOf 11 pid).reverse

section Decimal

theorem parseDigits_append (v : Nat) (s t : CStr) :
    parseDigits v (s ++ t) = (parseDigits v s).bind (parseDigits · t) := by
  induction s generalizing v with
  | nil => rfl
  | cons c s ih =>
      rw [List.cons_append, parseDigits, parseDigits]
      split
      · rfl
      · exact ih _

theorem digit_toNat (v : Nat) : ((48 + v % 10).toUInt8).toNat = 48 + v % 10 := by
  have hlt : v % 10 < 10 := Nat.mod_lt _ (by decide)
  rw [Nat.toUInt8_eq, UInt8.toNat_ofNat']
  omega

/-- The digits of a word, read back. -/
theorem parseDigits_digitsOf {room v : Nat} (hroom : v < 10 ^ room) (hv : v < 4294967296) :
    parseDigits 0 (digitsOf room v).reverse = some v := by
  induction room generalizing v with
  | zero =>
      obtain rfl : v = 0 := by simpa using hroom
      rfl
  | succ room ih =>
      rw [digitsOf]
      split
      · rename_i hz
        rw [hz]
        rfl
      · have hdiv : v / 10 < 10 ^ room := by
          rw [Nat.pow_succ] at hroom
          exact Nat.div_lt_of_lt_mul (by omega)
        rw [List.reverse_cons, parseDigits_append, ih hdiv (by omega), Option.bind_some, parseDigits]
        have hd := digit_toNat v
        have hlt : v % 10 < 10 := Nat.mod_lt _ (by decide)
        rw [if_neg, parseDigits, hd, u32_of_lt]
        · congr 1
          omega
        · omega
        · rw [not_or, gt_iff_lt, UInt8.lt_iff_toNat_lt, UInt8.lt_iff_toNat_lt, hd]
          refine ⟨Nat.not_lt.mpr (Nat.le_add_right _ _), ?_⟩
          show ¬57 < 48 + v % 10
          omega

theorem digitsOf_ne_nil {room v : Nat} (hv : v ≠ 0) : digitsOf (room + 1) v ≠ [] := by
  rw [digitsOf, if_neg hv]
  exact List.cons_ne_nil _ _

/-- The decimal text of a pid stands for it. -/
theorem pidText_dec {pid : Nat} (hpid : pid < 4294967296) : PidText (synthPidToDec pid) pid := by
  unfold synthPidToDec
  split
  · rename_i hz
    subst hz
    exact ⟨by decide, rfl⟩
  · rename_i hz
    refine ⟨?_, ?_⟩
    · rw [List.length_reverse]
      exact Nat.le_trans (length_digitsOf _ _) (by decide)
    · rw [parsePid, if_neg (by simpa using digitsOf_ne_nil hz)]
      exact parseDigits_digitsOf (Nat.lt_of_lt_of_le hpid (by decide)) hpid

end Decimal

/-- The names on the way to an entry. -/
def SynthId.names : SynthId → List CStr
  | .procDir => [str "proc"]
  | .pidDir pid => [str "proc", synthPidToDec pid]
  | .pidFile pid slot => [str "proc", synthPidToDec pid, pidFiles.getD slot []]
  | .proFile slot =>
      match slot with
      | 6 => [str "proc", str "net", str "dev"]
      | 7 => [str "proc", str "net", str "route"]
      | 8 => [str "proc", str "net", str "arp"]
      | _ => [str "proc", procFiles.getD slot []]
  | .sysDir slot => [str "sys", str "devices", str "virtual", str "dmi", str "id"].take (slot + 1)
  | .sysFile slot =>
      [str "sys", str "devices", str "virtual", str "dmi", str "id", sysFiles.getD slot []]

/-- The entries there are while there are tasks with these pids. -/
def SynthId.Exists (pids : List Nat) : SynthId → Prop
  | .procDir => True
  | .pidDir pid => pid ∈ pids
  | .pidFile pid slot => pid ∈ pids ∧ slot < pidFiles.length
  | .proFile slot => slot < procFiles.length
  | .sysDir slot => slot < sysDirs.length
  | .sysFile slot => slot < sysFiles.length

section Paths

variable {pids : List Nat} {sid : SynthId}

theorem exists_of_lookup {path : CStr} (h : synthLookup pids path = some sid) : sid.Exists pids := by
  have hslot : ∀ {table : List CStr} {slot : Nat} {name : CStr}, table[slot]? = some name →
      slot < table.length := fun hn => (List.getElem?_eq_some_iff.mp hn).1
  cases synthLookup_iff.mp h with
  | proc => trivial
  | net => trivial
  | proFile hname => exact hslot hname
  | pidDir _ hmem => exact hmem
  | pidFile _ hmem hname => exact ⟨hmem, hslot hname⟩
  | sysDir hpath => exact hslot hpath
  | sysFile hname => exact hslot hname

theorem PidText.proper {s : CStr} {pid : Nat} (h : PidText s pid) : ProperName s := by
  refine ⟨h.ne_nil, h.no_slash, Nat.le_trans h.1 (by decide), ?_, ?_⟩
  · rintro rfl
    exact absurd (h.digit dot List.mem_cons_self).1 (by decide)
  · rintro rfl
    exact absurd (h.digit dot List.mem_cons_self).1 (by decide)

/-- Every entry is found at its path. -/
theorem synthLookup_names (hpids : ∀ pid ∈ pids, pid < 4294967296) (h : sid.Exists pids) :
    synthLookup pids (pathOf sid.names) = some sid := by
  rw [synthLookup_iff]
  cases sid with
  | procDir => exact .proc
  | pidDir pid =>
      have hpath : pathOf (SynthId.pidDir pid).names = str "/proc/" ++ synthPidToDec pid := by
        rw [SynthId.names, pathOf, pathOf, pathOf, List.append_nil]
        rfl
      rw [hpath]
      exact .pidDir (pidText_dec (hpids pid h)) h
  | pidFile pid slot =>
      obtain ⟨hmem, hslot⟩ := h
      have hpath : pathOf (SynthId.pidFile pid slot).names =
          str "/proc/" ++ (synthPidToDec pid ++ slash :: pidFiles.getD slot []) := by
        rw [SynthId.names, pathOf, pathOf, pathOf, pathOf, List.append_nil]
        rfl
      rw [hpath]
      refine .pidFile (pidText_dec (hpids pid hmem)) hmem ?_
      rw [List.getD_eq_getElem?_getD, List.getElem?_eq_getElem hslot, Option.getD_some]
  | proFile slot =>
      change slot < 9 at h
      interval_cases slot <;> exact .proFile (by rfl)
  | sysDir slot =>
      change slot < 5 at h
      interval_cases slot <;> exact .sysDir (by rfl)
  | sysFile slot =>
      change slot < 3 at h
      interval_cases slot <;> exact .sysFile (by rfl)

/-- The path of an entry is made of proper names. -/
theorem names_proper (hpids : ∀ pid ∈ pids, pid < 4294967296) (h : sid.Exists pids) :
    sid.names ≠ [] ∧ (∀ name ∈ sid.names, ProperName name) ∧ (pathOf sid.names).length ≤ 255 := by
  cases sid with
  | procDir => decide
  | pidDir pid =>
      have ht := pidText_dec (hpids pid h)
      refine ⟨List.cons_ne_nil _ _, ?_, ?_⟩
      · rw [SynthId.names, List.forall_mem_cons, List.forall_mem_singleton]
        exact ⟨by decide, ht.proper⟩
      · have hlen := ht.1
        simp only [SynthId.names, pathOf, List.length_cons, List.length_append, List.length_nil]
        have hproc : (str "proc").length = 4 := by decide
        omega
  | pidFile pid slot =>
      obtain ⟨hmem, hslot⟩ := h
      have ht := pidText_dec (hpids pid hmem)
      have hfile : ∀ k < 2, ProperName (pidFiles.getD k []) ∧ (pidFiles.getD k []).length ≤ 7 := by
        decide
      obtain ⟨hproper, hshort⟩ := hfile slot hslot
      refine ⟨List.cons_ne_nil _ _, ?_, ?_⟩
      · rw [SynthId.names, List.forall_mem_cons, List.forall_mem_cons, List.forall_mem_singleton]
        exact ⟨by decide, ht.proper, hproper⟩
      · have hlen := ht.1
        simp only [SynthId.names, pathOf, List.length_cons, List.length_append, List.length_nil]
        have hproc : (str "proc").length = 4 := by decide
        omega
  | proFile slot =>
      change slot < 9 at h
      interval_cases slot <;> decide
  | sysDir slot =>
      change slot < 5 at h
      interval_cases slot <;> decide
  | sysFile slot =>
      change slot < 3 at h
      interval_cases slot <;> decide

theorem resolve_names (hpids : ∀ pid ∈ pids, pid < 4294967296) (h : sid.Exists pids) (cwd : CStr) :
    vfsResolvePath cwd (pathOf sid.names) = pathOf sid.names := by
  obtain ⟨hne, hproper, hlen⟩ := names_proper hpids h
  exact vfsResolvePath_pathOf cwd hne hproper hlen

end Paths

end LiteBSD
