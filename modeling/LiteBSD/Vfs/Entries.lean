/-
# `LiteBSD.Vfs.Entries` — the entries of `/proc` and `/sys`, as a table

`synth_lookup` compares, parses and compares again.  `EntryPath` says in one
line for each kind of entry which paths lead to it, and `synthLookup_iff` that
the two agree.  A task has more than one path: its digits may start with
zeros, and a number that does not fit a word is reduced.
-/
import LiteBSD.Vfs.Path

namespace LiteBSD

/-- The text `s` between two slashes stands for a pid. -/
def PidText (s : CStr) (pid : Nat) : Prop := s.length ≤ 15 ∧ parsePid s = some pid

/-- The directory of the SMBIOS files, with its slash. -/
def dmiPrefix : CStr := str "/sys/devices/virtual/dmi/id/"

/-- The paths of the entries while there are tasks with these pids. -/
inductive EntryPath (pids : List Nat) : CStr → SynthId → Prop
  | proc : EntryPath pids (str "/proc") .procDir
  | net : EntryPath pids (str "/proc/net") .procDir
  | proFile {slot : Nat} {name : CStr} : procFiles[slot]? = some name →
      EntryPath pids (str "/proc/" ++ name) (.proFile slot)
  | pidDir {s : CStr} {pid : Nat} : PidText s pid → pid ∈ pids →
      EntryPath pids (str "/proc/" ++ s) (.pidDir pid)
  | pidFile {s name : CStr} {pid slot : Nat} : PidText s pid → pid ∈ pids →
      pidFiles[slot]? = some name →
      EntryPath pids (str "/proc/" ++ (s ++ slash :: name)) (.pidFile pid slot)
  | sysDir {slot : Nat} {path : CStr} : sysDirs[slot]? = some path →
      EntryPath pids path (.sysDir slot)
  | sysFile {slot : Nat} {name : CStr} : sysFiles[slot]? = some name →
      EntryPath pids (dmiPrefix ++ name) (.sysFile slot)

section Entries

variable {pids : List Nat} {path s : CStr} {sid : SynthId} {pid : Nat}

/-- A table of distinct names, searched. -/
theorem idxOf?_iff {table : List CStr} (hnd : table.Nodup) {slot : Nat} {name : CStr} :
    table.idxOf? name = some slot ↔ table[slot]? = some name := by
  rw [List.idxOf?_eq_some_iff, List.getElem?_eq_some_iff]
  constructor
  · rintro ⟨hlt, he, _⟩
    exact ⟨hlt, he⟩
  · rintro ⟨hlt, he⟩
    refine ⟨hlt, he, fun j hj hej => ?_⟩
    have hij := (List.getElem_inj hnd).mp (hej.trans he.symm)
    exact Nat.ne_of_lt hj hij

theorem parseDigits_digit {v w : Nat} (h : parseDigits v s = some w) :
    ∀ c ∈ s, 48 ≤ c ∧ c ≤ 57 := by
  induction s generalizing v with
  | nil => intro c hc; cases hc
  | cons b s ih =>
      rw [parseDigits] at h
      split at h
      · cases h
      · rename_i hb
        rw [not_or, UInt8.not_lt, UInt8.not_lt] at hb
        intro c hc
        rcases List.mem_cons.mp hc with rfl | hc
        · exact hb
        · exact ih h c hc

theorem PidText.digit (h : PidText s pid) : ∀ c ∈ s, 48 ≤ c ∧ c ≤ 57 := by
  have hp := h.2
  rw [parsePid] at hp
  split at hp
  · cases hp
  · exact parseDigits_digit hp

theorem PidText.ne_nil (h : PidText s pid) : s ≠ [] := by
  rintro rfl
  cases h.2

theorem PidText.no_slash (h : PidText s pid) : slash ∉ s :=
  fun hmem => absurd (h.digit _ hmem).1 (by decide)

/-- What follows `/proc/`, when it starts with a text that has no slash. -/
theorem takeWhile_text {rest : CStr} (hs : slash ∉ s) (hrest : rest = [] ∨ rest.head? = some slash) :
    (s ++ rest).takeWhile (· ≠ slash) = s := by
  have hall : ∀ c ∈ s, decide (c ≠ slash) = true := fun c hc =>
    decide_eq_true fun he => hs (he ▸ hc)
  rw [List.takeWhile_append_of_pos hall]
  rcases hrest with rfl | hhead
  · simp
  · cases rest with
    | nil => cases hhead
    | cons c rest =>
        cases hhead
        simp

/-- The part of `synth_lookup` for a task, spelled out. -/
theorem pidLookup_iff {rest : CStr} : pidLookup pids rest = some sid ↔
    ∃ s pid, PidText s pid ∧ pid ∈ pids ∧
      (rest = s ∧ sid = .pidDir pid ∨
        ∃ slot name, pidFiles[slot]? = some name ∧ rest = s ++ slash :: name ∧
          sid = .pidFile pid slot) := by
  constructor
  · intro h
    unfold pidLookup at h
    dsimp only at h
    generalize hpbuf : (rest.takeWhile (· ≠ slash)).take 15 = pbuf at h
    have hsplit : rest = pbuf ++ rest.drop pbuf.length := by
      have hpre : pbuf <+: rest := by
        rw [← hpbuf]
        exact (List.take_prefix _ _).trans (List.takeWhile_prefix _)
      obtain ⟨t, rfl⟩ := hpre
      rw [List.drop_left]
    split at h
    · cases h
    · rename_i pid hpid
      split at h
      · cases h
      · rename_i hmem
        rw [not_not] at hmem
        have htext : PidText pbuf pid := by
          refine ⟨?_, hpid⟩
          rw [← hpbuf]
          exact List.length_take_le _ _
        refine ⟨pbuf, pid, htext, hmem, ?_⟩
        split at h
        · rename_i hnil
          cases h
          rw [hnil, List.append_nil] at hsplit
          exact .inl ⟨hsplit, rfl⟩
        · rename_i c fn hcons
          split at h
          · rename_i hc
            obtain ⟨slot, hslot, rfl⟩ := Option.map_eq_some_iff.mp h
            refine .inr ⟨slot, fn, (idxOf?_iff (by decide)).mp hslot, ?_, rfl⟩
            rw [hcons, hc] at hsplit
            exact hsplit
          · cases h
  · rintro ⟨s, pid, ht, hmem, hcase⟩
    have hfive : s.take 15 = s := List.take_of_length_le ht.1
    rcases hcase with ⟨rfl, rfl⟩ | ⟨slot, name, hname, rfl, rfl⟩
    · have htake := takeWhile_text ht.no_slash (.inl rfl)
      rw [List.append_nil] at htake
      simp only [pidLookup, htake, hfive, ht.2, List.drop_length, not_true, if_false, hmem]
    · have htake : (s ++ slash :: name).takeWhile (· ≠ slash) = s :=
        takeWhile_text ht.no_slash (.inr rfl)
      simp only [pidLookup, htake, hfive, ht.2, List.drop_left, not_true, if_false, hmem, if_true,
        (idxOf?_iff (by decide)).mpr hname, Option.map_some]

theorem sysLookup_iff : sysLookup path = some sid ↔
    (∃ slot, sysDirs[slot]? = some path ∧ sid = .sysDir slot) ∨
      ∃ slot name, sysFiles[slot]? = some name ∧ path = dmiPrefix ++ name ∧ sid = .sysFile slot := by
  have hnd : sysDirs.Nodup := by decide
  have hndf : sysFiles.Nodup := by decide
  constructor
  · intro h
    unfold sysLookup at h
    split at h
    · rename_i slot hslot
      cases h
      exact .inl ⟨slot, (idxOf?_iff hnd).mp hslot, rfl⟩
    · dsimp only at h
      split at h
      · rename_i htake
        obtain ⟨slot, hslot, rfl⟩ := Option.map_eq_some_iff.mp h
        refine .inr ⟨slot, _, (idxOf?_iff hndf).mp hslot, ?_, rfl⟩
        conv_lhs => rw [← List.take_append_drop (str "/sys/devices/virtual/dmi/id/").length path, htake]
        rfl
      · cases h
  · rintro (⟨slot, hslot, rfl⟩ | ⟨slot, name, hname, rfl, rfl⟩)
    · simp only [sysLookup, (idxOf?_iff hnd).mpr hslot]
    · have hdir : sysDirs.idxOf? (dmiPrefix ++ name) = none := by
        rw [List.idxOf?_eq_none_iff]
        intro hmem
        have hall : ∀ d ∈ sysDirs, d.length < dmiPrefix.length := by decide
        have hlt := hall _ hmem
        rw [List.length_append] at hlt
        exact absurd hlt (Nat.not_lt.mpr (Nat.le_add_right _ _))
      have htake : (dmiPrefix ++ name).take (str "/sys/devices/virtual/dmi/id/").length =
          str "/sys/devices/virtual/dmi/id/" := List.take_left' rfl
      have hdrop : (dmiPrefix ++ name).drop (str "/sys/devices/virtual/dmi/id/").length = name :=
        List.drop_left
      simp only [sysLookup, hdir, htake, hdrop, if_true, (idxOf?_iff hndf).mpr hname,
        Option.map_some]

/-- What `synth_lookup` finds. -/
theorem synthLookup_iff : synthLookup pids path = some sid ↔ EntryPath pids path sid := by
  constructor
  · intro h
    unfold synthLookup at h
    split at h
    · cases h
    · split at h
      · rename_i hdir
        cases h
        rcases hdir with rfl | rfl
        · exact .proc
        · exact .net
      · split at h
        · rename_i hpre
          have hsplit : path = str "/proc/" ++ path.drop 6 := by
            conv_lhs => rw [← List.take_append_drop 6 path, hpre]
          rw [hsplit]
          dsimp only at h
          split at h
          · rename_i slot hslot
            cases h
            exact .proFile ((idxOf?_iff (by decide)).mp hslot)
          · obtain ⟨s, pid, ht, hmem, ⟨hrest, rfl⟩ | ⟨slot, name, hname, hrest, rfl⟩⟩ :=
              pidLookup_iff.mp h
            · rw [hrest]
              exact .pidDir ht hmem
            · rw [hrest]
              exact .pidFile ht hmem hname
        · rcases sysLookup_iff.mp h with ⟨slot, hslot, rfl⟩ | ⟨slot, name, hname, rfl, rfl⟩
          · exact .sysDir hslot
          · exact .sysFile hname
  · -- below `/proc/`, a name that starts with a digit is no fixed file
    have hproc : ∀ rest : CStr, rest ∉ procFiles → rest ≠ [] → rest ≠ str "net" →
        synthLookup pids (str "/proc/" ++ rest) = pidLookup pids rest := by
      intro rest hfile hnil hnet
      have htop : str "/proc/" ++ rest ≠ str "/proc" := by
        intro he
        exact absurd (congrArg List.length he) (by simp [str])
      have hnet' : str "/proc/" ++ rest ≠ str "/proc/net" := by
        intro he
        have hsplit : str "/proc/net" = str "/proc/" ++ str "net" := by rfl
        exact hnet (List.append_cancel_left (he.trans hsplit))
      have htake : (str "/proc/" ++ rest).take 6 = str "/proc/" := List.take_left' rfl
      have hdrop : (str "/proc/" ++ rest).drop 6 = rest := List.drop_left' rfl
      have hhead : (str "/proc/" ++ rest).head? = some slash := rfl
      simp only [synthLookup, hhead, htop, hnet', htake, hdrop, List.idxOf?_eq_none_iff.mpr hfile,
        ne_eq, not_true, or_self, if_false, if_true]
    have hdigit : ∀ (rest : CStr) {s : CStr} {pid : Nat}, PidText s pid →
        s ++ rest ∉ procFiles ∧ s ++ rest ≠ [] ∧ s ++ rest ≠ str "net" := by
      intro rest s pid ht
      obtain ⟨c, t, rfl⟩ := List.exists_cons_of_ne_nil ht.ne_nil
      have hc := ht.digit c List.mem_cons_self
      have hletter : ∀ f ∈ str "net" :: procFiles, ∃ b ∈ f.head?, 57 < b := by decide
      have hno : ∀ f ∈ str "net" :: procFiles, c :: t ++ rest ≠ f := by
        rintro f hf rfl
        obtain ⟨b, hb, hlt⟩ := hletter _ hf
        cases hb
        exact absurd hc.2 (UInt8.not_le.mpr hlt)
      exact ⟨fun hmem => hno _ (List.mem_cons_of_mem _ hmem) rfl, List.cons_ne_nil _ _,
        hno _ List.mem_cons_self⟩
    intro h
    cases h with
    | proc => rfl
    | net => rfl
    | @proFile slot name hname =>
        have hmem : name ∈ procFiles := List.mem_of_getElem? hname
        have hnet : ∀ f ∈ procFiles, str "/proc/" ++ f ≠ str "/proc" ∧
            str "/proc/" ++ f ≠ str "/proc/net" := by decide
        have htake : (str "/proc/" ++ name).take 6 = str "/proc/" := List.take_left' rfl
        have hdrop : (str "/proc/" ++ name).drop 6 = name := List.drop_left' rfl
        have hhead : (str "/proc/" ++ name).head? = some slash := rfl
        have hslot := (idxOf?_iff (by decide)).mpr hname
        simp only [synthLookup, hhead, (hnet name hmem).1, (hnet name hmem).2, htake, hdrop, hslot,
          ne_eq, not_true, or_self, if_false, if_true]
    | @pidDir s pid ht hmem =>
        obtain ⟨hfile, hnil, hnet⟩ := hdigit [] ht
        rw [List.append_nil] at hfile hnil hnet
        rw [hproc s hfile hnil hnet]
        exact pidLookup_iff.mpr ⟨s, pid, ht, hmem, .inl ⟨rfl, rfl⟩⟩
    | @pidFile s name pid slot ht hmem hname =>
        obtain ⟨hfile, hnil, hnet⟩ := hdigit (slash :: name) ht
        rw [hproc _ hfile hnil hnet]
        exact pidLookup_iff.mpr ⟨s, pid, ht, hmem, .inr ⟨slot, name, hname, rfl, rfl⟩⟩
    | @sysDir slot _ hslot =>
        have hmem : path ∈ sysDirs := List.mem_of_getElem? hslot
        have hfix : ∀ d ∈ sysDirs, d.head? = some slash ∧ d ≠ str "/proc" ∧ d ≠ str "/proc/net" ∧
            d.take 6 ≠ str "/proc/" := by decide
        obtain ⟨hhead, hp, hnet, htake⟩ := hfix path hmem
        have hsys := sysLookup_iff.mpr (.inl ⟨slot, hslot, rfl⟩)
        simp only [synthLookup, hhead, hp, hnet, htake, ne_eq, not_true, or_self, if_false, hsys]
    | @sysFile slot name hname =>
        have htake : (dmiPrefix ++ name).take 6 ≠ str "/proc/" := by
          rw [List.take_append_of_le_length (by decide)]
          decide
        have hdir : ∀ d : CStr, d.length < 10 → dmiPrefix ++ name ≠ d := by
          rintro d hd rfl
          have hlen : dmiPrefix.length = 28 := by decide
          rw [List.length_append, hlen] at hd
          exact absurd hd (Nat.not_lt.mpr (Nat.le_trans (by decide) (Nat.le_add_right 28 _)))
        have hhead : (dmiPrefix ++ name).head? = some slash := rfl
        have hsys := sysLookup_iff.mpr (.inr ⟨slot, name, hname, rfl, rfl⟩)
        simp only [synthLookup, hhead, hdir (str "/proc") (by decide),
          hdir (str "/proc/net") (by decide), htake, ne_eq, not_true, or_self, if_false, hsys]

end Entries

end LiteBSD
