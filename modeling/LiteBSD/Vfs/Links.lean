/-
# `LiteBSD.Vfs.Links` — how far `follow_symlinks` goes

The loop of `follow_symlinks` is a `chase` over the link map: at a path that
no symlink node has it stops, at a link without a text it gives up, and at any
other link it goes on with the path that the text stands for, which is

    the text, resolved                            if it starts with a slash
    the text, resolved in the directory of the link       otherwise

The code has the second as a join and a resolution from the root.  That is the
same for every path the kernel has resolved (`linkTarget_eq`): the directory of
such a path is made of proper names.

The loop LOOKS eight times, so it follows seven links: a way of exactly eight
links ends in -1 (`follow_eight_iff`).
-/
import LiteBSD.Lib.Chase
import LiteBSD.Vfs.Components
import LiteBSD.Vfs.Growth
import LiteBSD.Vfs.Isolation

namespace LiteBSD

open Lib

/-! ## Resolved paths -/

/-- What `vfs_resolve_path` makes of paths, from the root on or from what it
made before. -/
inductive ResolvedPath : CStr → Prop
  | root : ResolvedPath [slash]
  | resolve {cwd : CStr} (path : CStr) : ResolvedPath cwd → ResolvedPath (vfsResolvePath cwd path)

/-- The directory that holds the name at the end of a path. -/
def directoryOf (path : CStr) : CStr := dirPath (components path).dropLast

/-- A buffer as a walk leaves it: only the name on top may be cut, and no name
is longer than a component. -/
structure NameStack.Kept (st : NameStack) : Prop where
  fits : st.Fits
  topCut : st.TopCut
  short : ∀ name ∈ st.names, name.length ≤ componentMax

section Resolved

variable {p path name : CStr} {st : NameStack}

theorem NameStack.Kept.root : NameStack.Kept ⟨[], false⟩ :=
  ⟨.of_names (List.forall_mem_nil _) (Nat.zero_le _), ⟨List.forall_mem_nil _, fun _ => List.forall_mem_nil _⟩,
    List.forall_mem_nil _⟩

theorem NameStack.short_push {comp : CStr} {m : Nat} (h : ∀ name ∈ st.names, name.length ≤ m)
    (hcomp : comp.length ≤ m) : ∀ name ∈ (st.push comp).names, name.length ≤ m := by
  have hsnoc : ∀ room, ∀ name ∈ st.names ++ [comp.take room], name.length ≤ m := by
    intro room name hmem
    rcases List.mem_append.mp hmem with hold | hnew
    · exact h name hold
    · rw [List.mem_singleton.mp hnew]
      exact Nat.le_trans (List.length_take_le' _ _) hcomp
  unfold NameStack.push
  dsimp only
  repeat' split
  all_goals first
    | exact hsnoc _
    | exact h

theorem NameStack.Kept.step {comp : CStr} (h : st.Kept) (hne : comp ≠ []) (hslash : slash ∉ comp)
    (hshort : comp.length ≤ componentMax) : (st.step comp).Kept := by
  refine ⟨h.fits.step hne hslash, h.topCut.step hne hslash, ?_⟩
  unfold NameStack.step
  split
  · exact h.short
  split
  · exact fun name hmem => h.short name (List.mem_of_mem_dropLast hmem)
  · exact NameStack.short_push h.short hshort

theorem NameStack.head_text (st : NameStack) : st.text.head? = some slash := by
  have hdir : (dirPath st.names).head? = some slash := by
    cases hnames : st.names with
    | nil => rfl
    | cons name names => rfl
  rw [NameStack.text, List.head?_append, hdir]
  rfl

/-- A resolved path is what a buffer holds. -/
theorem ResolvedPath.stack (h : ResolvedPath p) : ∃ st : NameStack, st.Kept ∧ p = st.text := by
  induction h with
  | root => exact ⟨⟨[], false⟩, .root, rfl⟩
  | @resolve cwd path _ ih =>
      obtain ⟨st, hst, rfl⟩ := ih
      by_cases hnil : path = []
      · have htake : st.text.take (pathMax - 1) = st.text := List.take_of_length_le hst.fits.text_length
        rw [hnil, vfsResolvePath, if_pos rfl, if_neg (NameStack.text_ne_nil st), htake]
        exact ⟨st, hst, rfl⟩
      · obtain ⟨hfits, htext, htop, hcut⟩ := hst.fits.cut hst.topCut
        have hkept : (stackOf (st.text.take 254)).Kept := by
          refine ⟨hfits, htop, fun name hmem => ?_⟩
          obtain ⟨whole, hwhole, hle⟩ := hcut name hmem
          exact Nat.le_trans hle (hst.short whole hwhole)
        have hend : (endStack st.text path).Kept :=
          endStack_of (startStack_of .root hkept path) fun _ _ h hne hslash hshort => h.step hne hslash hshort
        exact ⟨_, hend, resolve_text (NameStack.head_text st) hfits htext hnil⟩

/-! ### The directory of a path -/

/-- `path_parent_dir` takes the last name off, and a slash behind it first. -/
theorem pathParentDir_name {tail : CStr} (hne : name ≠ []) (hname : slash ∉ name)
    (htail : tail = [] ∨ tail = [slash]) (hlen : (p ++ slash :: name ++ tail).length ≤ 255) :
    pathParentDir (p ++ slash :: name ++ tail) = if p = [] then [slash] else p := by
  obtain ⟨k, hk⟩ : ∃ k, p.length + 1 + name.length = k + 2 := by
    have hpos := List.length_pos_iff.mpr hne
    exact ⟨p.length + name.length - 1, by omega⟩
  have hwhole : (p ++ slash :: name).length = k + 2 := by
    rw [← hk, List.length_append, List.length_cons]
    omega
  have hat : ∀ j < name.length, (p ++ slash :: name ++ tail)[p.length + 1 + j]? = name[j]? := by
    intro j hj
    rw [List.append_assoc, Nat.add_assoc, List.getElem?_append_right (Nat.le_add_right _ _),
      Nat.add_sub_cancel_left, List.cons_append, Nat.add_comm 1 j, List.getElem?_cons_succ,
      List.getElem?_append_left hj]
  have hno : ∀ j < name.length, (p ++ slash :: name ++ tail)[p.length + 1 + j]? ≠ some slash := by
    intro j hj he
    rw [hat j hj] at he
    exact hname (List.mem_of_getElem? he)
  -- the last byte of the name is where the stripping ends
  have hstop : stripSlashes (p ++ slash :: name ++ tail) (k + 2) = k + 2 := by
    have hlast := hno (name.length - 1) (Nat.sub_one_lt_of_lt (List.length_pos_iff.mpr hne))
    have hidx : p.length + 1 + (name.length - 1) = k + 1 := by
      have hpos := List.length_pos_iff.mpr hne
      omega
    rw [hidx] at hlast
    rw [stripSlashes, if_neg hlast]
  have hstrip : stripSlashes (p ++ slash :: name ++ tail) (p ++ slash :: name ++ tail).length = k + 2 := by
    rcases htail with rfl | rfl
    · rw [List.append_nil, hwhole]
      rw [List.append_nil] at hstop
      exact hstop
    · have hslash : (p ++ slash :: name ++ [slash])[k + 2]? = some slash := by
        rw [← hwhole, List.getElem?_append_right (Nat.le_refl _), Nat.sub_self]
        rfl
      rw [List.length_append, hwhole, List.length_singleton, stripSlashes, if_pos hslash]
      exact hstop
  -- from there the search goes back over the name
  have hsearch : ∀ j ≤ name.length, lastSlash (p ++ slash :: name ++ tail) (p.length + 1 + j) = some p.length := by
    intro j hj
    induction j with
    | zero =>
        have hslash : (p ++ slash :: name ++ tail)[p.length]? = some slash := by
          rw [List.append_assoc, List.getElem?_append_right (Nat.le_refl _), Nat.sub_self]
          rfl
        rw [Nat.add_zero, lastSlash, if_pos hslash]
    | succ j ih =>
        rw [← Nat.add_assoc, lastSlash, if_neg (hno j hj)]
        exact ih (Nat.le_of_succ_le hj)
  have hmin : min (p ++ slash :: name ++ tail).length (pathMax - 1) = (p ++ slash :: name ++ tail).length :=
    Nat.min_eq_left hlen
  unfold pathParentDir
  rw [hmin, hstrip, ← hk]
  dsimp only
  rw [hsearch name.length (Nat.le_refl _)]
  dsimp only
  have hshort : p.length ≤ 255 := by
    rw [List.length_append, List.length_append] at hlen
    omega
  have hcut : min p.length (pathMax - 1) = p.length := Nat.min_eq_left hshort
  rw [hcut, List.append_assoc, List.take_left]
  exact if_congr List.length_eq_zero_iff rfl rfl

/-- The directory of a resolved path. -/
theorem pathParentDir_eq (hst : st.Kept) : pathParentDir st.text = directoryOf st.text := by
  rw [directoryOf, hst.fits.components]
  have hlen := hst.fits.text_length
  obtain ⟨names, tail⟩ := st
  rcases List.eq_nil_or_concat names with hnil | ⟨init, name, hsnoc⟩
  · subst hnil
    cases tail with
    | false => rfl
    | true => rcases hst.fits.tail rfl with h | h <;> cases h
  · rw [List.concat_eq_append] at hsnoc
    subst hsnoc
    obtain ⟨hne, hname⟩ := hst.fits.names name (List.mem_append_right _ (List.mem_singleton_self _))
    rw [NameStack.text, NameStack.dirPath_snoc] at hlen ⊢
    have htail : (if tail = true then [slash] else []) = ([] : CStr) ∨
        (if tail = true then [slash] else []) = [slash] := by
      cases tail
      · exact .inl rfl
      · exact .inr rfl
    rw [pathParentDir_name hne hname htail hlen, List.dropLast_concat, NameStack.dirPath_eq]

/-- It is made of proper names, and there is room behind it. -/
theorem directory_proper (hst : st.Kept) :
    (∀ name ∈ st.names.dropLast, ProperName name) ∧ (dirPath st.names.dropLast).length ≤ 253 := by
  refine ⟨fun name hmem => ?_, ?_⟩
  · obtain ⟨hslash, hnil, hdot, hdots⟩ := hst.topCut.below name hmem
    exact ⟨hnil, hslash, hst.short name (List.mem_of_mem_dropLast hmem), hdot, hdots⟩
  · rcases List.eq_nil_or_concat st.names with hnil | ⟨init, name, hsnoc⟩
    · rw [hnil]
      decide
    rw [List.concat_eq_append] at hsnoc
    have hpos := List.length_pos_iff.mpr
      (hst.fits.names name (hsnoc ▸ List.mem_append_right _ (List.mem_singleton_self _))).1
    have hlen := hst.fits.length
    rw [hsnoc, NameStack.pathOf_snoc, List.length_append, List.length_cons] at hlen
    rw [hsnoc, List.dropLast_concat, NameStack.dirPath_eq]
    split
    · decide
    · omega

/-- A relative text is walked from the directory. -/
theorem resolve_relative {dir text : CStr} (hw : Walked dir) (hhead : dir.head? = some slash) (hlen : dir.length ≤ 254)
    (hne : text ≠ []) (hrel : text.head? ≠ some slash) :
    vfsResolvePath dir text = resolveLoop text.length dir text := by
  have hstart : resolveStart dir text = (dir, text) := by
    obtain ⟨b, rest, rfl⟩ := List.exists_cons_of_ne_nil hne
    have hb : b ≠ slash := fun he => hrel (congrArg some he)
    have htake : dir.take (pathMax - 2) = dir := List.take_of_length_le hlen
    rw [resolveStart, if_neg hb, if_neg (not_not.mpr hhead), htake]
  have hend : Walked (resolveLoop text.length dir text) := hw.loop _
  unfold vfsResolvePath
  rw [if_neg hne, hstart]
  dsimp only
  rw [if_neg hend.ne_nil]
  exact List.take_of_length_le hend.length

/-- Joined to a directory and walked from the root, it comes out the same. -/
theorem resolve_beside {names : List CStr} {text : CStr} (hn : ∀ name ∈ names, ProperName name)
    (hlen : (dirPath names).length ≤ 253) (hne : text ≠ []) (hrel : text.head? ≠ some slash) :
    vfsResolvePath [slash] ((if (dirPath names).getLast? = some slash then dirPath names
      else dirPath names ++ [slash]) ++ text) = vfsResolvePath (dirPath names) text := by
  by_cases hnil : names = []
  · subst hnil
    have hhead : (slash :: text).head? = some slash := rfl
    obtain ⟨hall, -⟩ := resolve_absolute hhead [slash]
    have hfuel : resolveLoop (text.length + 1) [slash] text = resolveLoop text.length [slash] text :=
      resolveLoop_fuel (Nat.le_succ _) (Nat.le_refl _)
    have hrest : vfsResolvePath (dirPath []) text = resolveLoop text.length [slash] text :=
      resolve_relative .root rfl (by decide) hne hrel
    rw [hrest]
    exact hall.trans hfuel
  · have hdir : dirPath names = pathOf names := if_neg hnil
    rw [hdir] at hlen ⊢
    have hlast : (pathOf names).getLast? ≠ some slash := by
      obtain ⟨init, name, hsnoc⟩ := (List.eq_nil_or_concat names).resolve_left hnil
      rw [List.concat_eq_append] at hsnoc
      have hname := hn name (hsnoc ▸ List.mem_append_right _ (List.mem_singleton_self _))
      rw [hsnoc, NameStack.pathOf_snoc, List.getLast?_append_of_ne_nil _ (List.cons_ne_nil _ _),
        List.getLast?_cons_of_ne_nil hname.ne_nil]
      exact fun he => hname.no_slash (List.mem_of_getLast? he)
    have hhead : (pathOf names).head? = some slash := 
      (pathOf_head names).resolve_left fun h => hnil (NameStack.pathOf_eq_nil.mp h)
    have hself : vfsResolvePath [slash] (pathOf names) = pathOf names :=
      vfsResolvePath_pathOf [slash] hnil hn (Nat.le_trans hlen (by decide))
    have hw := (resolve_absolute hhead [slash]).2
    rw [hself] at hw
    rw [if_neg hlast, List.append_assoc, List.singleton_append, resolve_joined hhead, hself,
      resolve_relative hw hhead (Nat.le_succ_of_le hlen) hne hrel]
    exact resolveLoop_fuel (Nat.le_succ _) (Nat.le_refl _)

/-- The path of `follow_symlinks` is that of the text in the directory of the
link. -/
theorem linkTarget_eq {text : CStr} (hst : st.Kept) (hne : text ≠ []) (hlen : text.length ≤ 255) :
    linkTarget st.text text = vfsResolvePath (directoryOf st.text) text := by
  unfold linkTarget
  by_cases habs : text.head? = some slash
  · rw [if_pos habs]
    obtain ⟨b, rest, rfl⟩ := List.exists_cons_of_ne_nil hne
    cases habs
    rfl
  · obtain ⟨hproper, hroom⟩ := directory_proper hst
    have hdir : directoryOf st.text = dirPath st.names.dropLast := by rw [directoryOf, hst.fits.components]
    rw [if_neg habs, pathParentDir_eq hst, hdir]
    dsimp only
    rw [List.take_of_length_le, resolve_beside hproper hroom hne habs]
    rw [List.length_append]
    split
    · omega
    · rw [List.length_append, List.length_singleton]
      omega

end Resolved

/-! ## The link map -/

/-- The text of the symlink node at a path, empty when it has no data. -/
def linkText (v : Vfs) (p : CStr) : Option CStr :=
  (findNode v p).bind fun a => (v.node a).bind fun n =>
    if isSymlinkNode n then some (((n.data.bind v.buf).bind fun m => m.readStr 0 (pathMax - 1)).getD []) else none

/-- Where the way goes on from a path. -/
def linkHop (v : Vfs) (p : CStr) : Hop CStr :=
  match linkText v p with
  | none => .stop
  | some [] => .dead
  | some text => .on (vfsResolvePath (directoryOf p) text)

/-- The data of a symlink node, when it has some, is a string. -/
def LinkTexts (v : Vfs) : Prop :=
  ∀ a n, v.node a = some n → isSymlinkNode n = true → n.data = none ∨ Terminated v n

/-- Within `n` links `follow_symlinks` gets to the path that is no symlink
node, and else it returns -1. -/
def FollowsUpTo (v : Vfs) (n : Nat) (p : CStr) : Prop :=
  ∃ r, followSymlinks v p = .ret r ∧ ∀ q, r = some q ↔ EndsWithin (linkHop v) n p q

section Follow

variable {v : Vfs} {p q : CStr}

theorem Buf.readStr_length {m : Buf} {i room : Nat} {text : CStr} (h : m.readStr i room = some text) :
    text.length ≤ room := by
  induction room generalizing i text with
  | zero =>
      cases h
      exact Nat.le_refl _
  | succ room ih =>
      rw [Buf.readStr] at h
      split at h
      · cases h
      · split at h
        · cases h
          exact Nat.zero_le _
        · obtain ⟨rest, hrest, rfl⟩ := Option.map_eq_some_iff.mp h
          exact Nat.succ_le_succ (ih hrest)

theorem Buf.readStr_some {m : Buf} {i j : Nat} (hnul : m.byte j = 0) (hlt : j < m.len) (room : Nat) (hij : i ≤ j) :
    ∃ text, m.readStr i room = some text := by
  induction room generalizing i with
  | zero => exact ⟨[], rfl⟩
  | succ room ih =>
      rw [Buf.readStr, if_neg (Nat.not_le.mpr (Nat.lt_of_le_of_lt hij hlt))]
      by_cases hz : m.byte i = 0
      · exact ⟨[], if_pos hz⟩
      · have hne : i ≠ j := fun he => hz (he ▸ hnul)
        obtain ⟨text, htext⟩ := ih (Nat.lt_of_le_of_ne hij hne)
        exact ⟨m.byte i :: text, by rw [if_neg hz, htext, Option.map_some]⟩

theorem LinkTexts.read (h : LinkTexts v) {a b : Nat} {n : Node} (hn : v.node a = some n)
    (hlink : isSymlinkNode n = true) (hb : n.data = some b) :
    ∃ m text, v.buf b = some m ∧ m.readStr 0 (pathMax - 1) = some text := by
  rcases h a n hn hlink with hnone | ⟨b', m, i, hb', hm, hlt, hnul⟩
  · rw [hb] at hnone
    cases hnone
  · obtain rfl : b = b' := Option.some.inj (hb.symm.trans hb')
    obtain ⟨text, htext⟩ := Buf.readStr_some hnul hlt (pathMax - 1) (Nat.zero_le i)
    exact ⟨m, text, hm, htext⟩

theorem linkHop_stop : linkHop v p = .stop ↔ linkText v p = none := by
  unfold linkHop
  split <;> simp_all

theorem linkText_of_find {a : Nat} {n : Node} (hfind : findNode v p = some a) (hn : v.node a = some n) :
    linkText v p = if isSymlinkNode n then
      some (((n.data.bind v.buf).bind fun m => m.readStr 0 (pathMax - 1)).getD []) else none := by
  rw [linkText, hfind, Option.bind_some, hn, Option.bind_some]

/-- The loop chases the link map. -/
theorem followLoop_eq (ht : NodeTable v) (htexts : LinkTexts v) (hp : ResolvedPath p) (depth : Nat) :
    followLoop v depth p = .ret (chase (linkHop v) depth p) := by
  induction depth generalizing p with
  | zero => rfl
  | succ depth ih =>
      obtain ⟨st, hst, rfl⟩ := hp.stack
      rw [followLoop, chase]
      cases hfind : findNode v st.text with
      | none =>
          have hhop : linkHop v st.text = .stop := linkHop_stop.mpr (by rw [linkText, hfind, Option.bind_none])
          rw [hhop]
      | some a =>
          obtain ⟨n, hn⟩ := ht.live (findNode_listed hfind)
          have htext := linkText_of_find hfind hn
          dsimp only
          rw [Vfs.load_live hn, Exec.ret_bind]
          cases hlink : isSymlinkNode n with
          | false =>
              have hhop : linkHop v st.text = .stop := linkHop_stop.mpr (by rw [htext, hlink]; rfl)
              rw [hhop]
              rfl
          | true =>
              rw [hlink, if_pos rfl] at htext
              cases hdata : n.data with
              | none =>
                  have hhop : linkHop v st.text = .dead := by rw [linkHop, htext, hdata]; rfl
                  rw [hhop]
                  rfl
              | some b =>
                  obtain ⟨m, text, hm, hread⟩ := htexts.read hn hlink hdata
                  have hload : v.loadBuf b = .ret m := by rw [Vfs.loadBuf, hm]
                  rw [hdata, Option.bind_some, hm, Option.bind_some, hread, Option.getD_some] at htext
                  rw [if_neg (by decide)]
                  dsimp only
                  rw [hload, Exec.ret_bind, hread]
                  cases text with
                  | nil =>
                      have hhop : linkHop v st.text = .dead := by rw [linkHop, htext]
                      rw [hhop]
                  | cons c text =>
                      have hhop : linkHop v st.text = .on (vfsResolvePath (directoryOf st.text) (c :: text)) := by
                        rw [linkHop, htext]
                      have htarget := linkTarget_eq hst (List.cons_ne_nil c text) (Buf.readStr_length hread)
                      have hnext : ResolvedPath (linkTarget st.text (c :: text)) := by
                        unfold linkTarget
                        split
                        · exact .resolve _ .root
                        · exact .resolve _ .root
                      have hrest := ih hnext
                      rw [htarget] at hrest
                      rw [hhop]
                      dsimp only
                      rw [htarget, hrest]

theorem followsUpTo_iff (ht : NodeTable v) (htexts : LinkTexts v) (hp : ResolvedPath p) {n : Nat} :
    FollowsUpTo v n p ↔ ∀ q, chase (linkHop v) 8 p = some q ↔ EndsWithin (linkHop v) n p q := by
  have hrun : followSymlinks v p = .ret (chase (linkHop v) 8 p) := followLoop_eq ht htexts hp 8
  constructor
  · rintro ⟨r, hr, h⟩
    rw [hrun] at hr
    cases hr
    exact h
  · exact fun h => ⟨_, hrun, h⟩

/-- `follow_symlinks` follows seven links.  It follows eight exactly where no
way of eight links comes to an end. -/
theorem follow_eight_iff (ht : NodeTable v) (htexts : LinkTexts v) (hp : ResolvedPath p) :
    FollowsUpTo v 7 p ∧
      (FollowsUpTo v 8 p ↔ ¬∃ q, Leads (linkHop v) 8 p q ∧ linkText v q = none) := by
  refine ⟨(followsUpTo_iff ht htexts hp).mpr fun q => chase_eq_some, ?_⟩
  rw [followsUpTo_iff ht htexts hp, chase_ends_iff]
  simp only [linkHop_stop]

end Follow

/-! ## Every symlink has a text -/

section Texts

variable {v v' : Vfs} {call : VfsCall} {a x : Nat} {n : Node}

/-- A call leaves the buffers of the nodes it does not work on. -/
theorem BlobInv.buf_kept (h : BlobInv v) (ht : NodeTable v) (hs : vfsCall v call = .ret v')
    (hx : call.worksOn v ≠ some x) (hn : v.node x = some n) {d : Nat} (hd : n.data = some d) : v'.buf d = v.buf d := by
  cases call_effect ht.fresh hs with
  | idle hu => exact congrFun hu.buf d
  | opened _ _ hv =>
      rw [hv]
      rfl
  | made hm _ => exact hm.data.spec.1 d (h.data_lt hn hd)
  | linked hl _ => exact congrFun hl.buf d
  | wrote hw =>
      rcases vfsWrite_spec h ht.nodup hw with ⟨fb, rfl⟩ | ⟨m, m', _, hwork⟩
      · rfl
      · exact (hwork.isolated x n (fun he => hx (congrArg some he.symm)) hn).2 d hd
  | truncated hw =>
      obtain ⟨m, hm, -⟩ := Exec.bind_eq_ret.mp hw
      rcases vfsTruncate_spec h ht.nodup (Vfs.load_ret hm) hw with ⟨_, rfl, _⟩ | ⟨_, m', hwork, _⟩
      · rfl
      · exact (hwork.isolated x n (fun he => hx (congrArg some he.symm)) hn).2 d hd
  | closed hc =>
      obtain ⟨m, hm, ⟨k, rfl⟩ | ⟨_, hu⟩⟩ := h.closed ht hc
      · rfl
      · exact hu.keeps h ht.nodup x n d (fun he => hx (congrArg some he.symm)) hn hd
  | unlinked ha _ hu =>
      obtain ⟨m, hu⟩ := unlinkNode_ret hu
      refine hu.keeps h ht.nodup x n d (fun he => hx ?_) hn hd
      cases call with
      | unlink c path => exact he ▸ ha
      | rmdir c path => exact he ▸ ha
      | _ => cases ha
  | renamed _ hr =>
      obtain ⟨m, _, rfl⟩ := renameNode_ret hr
      rfl

/-- What `synth_open` does to the nodes. -/
theorem synthOpen_node {c : Caller} {resolved : CStr} {sid : SynthId} {p : Option Nat}
    (h : synthOpen v c resolved sid = .ret (v', p)) :
    v'.node = v.node ∨ ∃ a data len, v'.node = Function.update v.node a (some (synthNode resolved sid data len)) := by
  unfold synthOpen at h
  split at h
  · cases h
    exact .inl rfl
  · rename_i content _
    obtain ⟨⟨w, q⟩, hw, h⟩ := Exec.bind_eq_ret.mp h
    have hnode := (Untouched.kmalloc hw).node
    cases q with
    | none =>
        cases h
        exact .inl hnode
    | some a =>
        obtain ⟨⟨u, data⟩, hu, h⟩ := Exec.bind_eq_ret.mp h
        have hnode' := (Vfs.kmallocBuf_kept hu).1.trans hnode
        dsimp only at h
        split at h
        · cases h
          exact .inl hnode'
        · obtain ⟨y, hy, h⟩ := Exec.bind_eq_ret.mp h
          cases h
          refine .inr ⟨a, data, content.length, ?_⟩
          rw [← hnode', ← Vfs.storeBytes_node hy]
          rfl

theorem isSymlinkNode_plain (h : n.mode = sIfdir ∨ n.mode = sIfreg) : isSymlinkNode n = false := by
  unfold isSymlinkNode
  rcases h with h | h
  · rw [h]
    decide
  · rw [h]
    decide

/-- What `vfs_open` makes is no symlink. -/
theorem vfsOpen_made {c : Caller} {path : CStr} {flags : Nat} {p : Option Nat}
    (h : vfsOpen v c path flags = .ret (v', p)) (hnew : v.node x = none) (hn : v'.node x = some n) :
    isSymlinkNode n = false := by
  have hupdate : ∀ {a : Nat} {m : Node}, v'.node = Function.update v.node a (some m) → isSymlinkNode m = false →
      isSymlinkNode n = false := by
    intro a m hnode hm
    rw [hnode] at hn
    by_cases hx : x = a
    · rw [hx, Function.update_self, Option.some.injEq] at hn
      exact hn ▸ hm
    · rw [Function.update_of_ne hx, hnew] at hn
      cases hn
  have hsame : v'.node = v.node → isSymlinkNode n = false := by
    intro hnode
    rw [hnode, hnew] at hn
    cases hn
  unfold vfsOpen at h
  dsimp only at h
  split at h
  · rename_i sid _
    split at h
    · cases h
      exact hsame rfl
    · rcases synthOpen_node h with hnode | ⟨a, data, len, hnode⟩
      · exact hsame hnode
      · refine hupdate hnode (isSymlinkNode_plain ?_)
        unfold synthNode
        dsimp only
        split
        · exact .inl rfl
        · exact .inr rfl
  · split at h
    · obtain ⟨target, _, h⟩ := Exec.bind_eq_ret.mp h
      cases target with
      | none =>
          cases h
          exact hsame rfl
      | some t =>
          obtain ⟨m, hm, h⟩ := Exec.bind_eq_ret.mp h
          cases h
          have hxt : x ≠ t := by
            rintro rfl
            rw [Vfs.load_ret hm] at hnew
            cases hnew
          rw [Vfs.node_setNode_ne hxt, hnew] at hn
          cases hn
    · split at h
      · unfold openCreate at h
        split at h
        · obtain ⟨⟨w, q⟩, hw, h⟩ := Exec.bind_eq_ret.mp h
          have hnode := (Untouched.kmalloc hw).node
          cases q with
          | none =>
              cases h
              exact hsame hnode
          | some a =>
              cases h
              have hlinked : (linkIn w a (freshNode (c.resolve path) sIfreg)).node =
                  Function.update w.node a (some { freshNode (c.resolve path) sIfreg with ino := w.nextIno }) := rfl
              rw [hnode] at hlinked
              exact hupdate hlinked (isSymlinkNode_plain (.inr rfl))
        · cases h
          exact hsame rfl
      · cases h
        exact hsame rfl

/-- A node that was there, with its kind and its data, and a call that works
on another. -/
theorem Terminated.kept {m : Node} (h : m.data = none ∨ Terminated v m) (hd : n.data = m.data)
    (hbuf : ∀ d, m.data = some d → v'.buf d = v.buf d) : n.data = none ∨ Terminated v' n := by
  rcases h with hnone | ⟨d, buf, i, hdata, hm, hlt, hnul⟩
  · exact .inl (hd.trans hnone)
  · exact .inr ⟨d, buf, i, hd.trans hdata, (hbuf d hdata).trans hm, hlt, hnul⟩

/-- The kind of a node, from its label. -/
theorem SameNames.symlink {n' : Node} (h : SameNames v v') (hn' : v'.node x = some n') :
    ∃ m, v.node x = some m ∧ isSymlinkNode m = isSymlinkNode n' := by
  have hl := congrFun h.label x
  rw [Vfs.label, Vfs.label, hn'] at hl
  obtain ⟨m, hm, hlabel⟩ := Option.map_eq_some_iff.mp hl.symm
  exact ⟨m, hm, congrArg (fun l : Label => decide (l.mode &&& 0xF000 = sIflnk)) hlabel⟩

/-- A new node, or one that was there. -/
theorem NewNode.old {m n' : Node} (hm : NewNode v v' a m) (hn' : v'.node x = some n') :
    x = a ∧ n' = m ∨ v'.node x = v.node x := by
  rw [hm.node] at hn' ⊢
  by_cases hx : x = a
  · rw [hx, Function.update_self, Option.some.injEq] at hn'
    exact .inl ⟨hx, hn'.symm⟩
  · exact .inr (Function.update_of_ne hx _ _)

theorem LinkTexts.step (htexts : LinkTexts v) (h : BlobInv v) (ht : NodeTable v) (hs : vfsCall v call = .ret v') :
    LinkTexts v' := by
  intro x n' hn' hlink
  -- the node was there, and the call works on another one
  have hold : ∀ {m : Node}, v.node x = some m → m.mode = n'.mode → n'.data = m.data → call.worksOn v ≠ some x →
      n'.data = none ∨ Terminated v' n' := by
    intro m hm hmode hd hx
    have hlink' : isSymlinkNode m = true := by
      rw [isSymlinkNode, hmode]
      exact hlink
    exact Terminated.kept (htexts x m hm hlink') hd fun d hd => h.buf_kept ht hs hx hm hd
  have hsame : v'.node x = v.node x → call.worksOn v ≠ some x → n'.data = none ∨ Terminated v' n' :=
    fun he hx => hold (he ▸ hn') rfl rfl hx
  have hplain : isSymlinkNode n' = false → n'.data = none ∨ Terminated v' n' := by
    intro hno
    rw [hlink] at hno
    cases hno
  have hremoved : ∀ b, call.worksOn v = some b → v'.node = Function.update v.node b none →
      n'.data = none ∨ Terminated v' n' := by
    intro b hb hnode
    have hx : x ≠ b := by
      rintro rfl
      rw [hnode, Function.update_self] at hn'
      cases hn'
    refine hsame (by rw [hnode, Function.update_of_ne hx]) fun he => hx ?_
    exact Option.some.inj (he.symm.trans hb)
  have hidle : none ≠ some x := (Option.some_ne_none x).symm
  cases call with
  | openPath c path flags =>
      obtain ⟨⟨w, p⟩, hw, hs⟩ := Exec.bind_eq_ret.mp hs
      cases hs
      cases vfsOpen_effect hw with
      | failed hu => exact hsame (congrFun hu.node x) hidle
      | @found a m hm _ he =>
          subst he
          by_cases hx : x = a
          · subst hx
            rw [Vfs.node_setNode_self, Option.some.injEq] at hn'
            subst hn'
            exact hold hm rfl rfl hidle
          · exact hsame (Vfs.node_setNode_ne hx) hidle
      | made hm _ =>
          rcases hm.old hn' with ⟨rfl, _⟩ | he
          · exact hplain (vfsOpen_made hw (ht.fresh _ hm.fresh.1) hn')
          · exact hsame he hidle
  | close a =>
      obtain ⟨⟨w, r⟩, hw, hs⟩ := Exec.bind_eq_ret.mp hs
      cases hs
      obtain ⟨m, hm, ⟨k, rfl⟩ | ⟨_, hu⟩⟩ := h.closed ht hw
      · by_cases hx : x = a
        · subst hx
          rw [Vfs.node_setNode_self, Option.some.injEq] at hn'
          subst hn'
          exact Terminated.kept (htexts x m hm hlink) rfl fun _ _ => rfl
        · exact hsame (Vfs.node_setNode_ne hx) fun he => hx (Option.some.inj he).symm
      · exact hremoved a rfl hu.node
  | write a offset buffer =>
      obtain ⟨⟨w, r⟩, hw, hs⟩ := Exec.bind_eq_ret.mp hs
      cases hs
      by_cases hx : x = a
      · subst hx
        obtain ⟨m, hm, hkind⟩ := (SameNames.of_vfsWrite hw).symlink hn'
        rw [vfsWrite, Vfs.load_live hm, Exec.ret_bind] at hw
        have hv : v' = v := by
          split at hw
          · cases hw
            rfl
          · rw [if_pos (hkind.trans hlink)] at hw
            cases hw
            rfl
        exact hv ▸ htexts x n' (hv ▸ hn') hlink
      · exact hsame ((OnlyAt.of_vfsWrite hw).node x hx) fun he => hx (Option.some.inj he).symm
  | truncate a length =>
      obtain ⟨⟨w, r⟩, hw, hs⟩ := Exec.bind_eq_ret.mp hs
      cases hs
      by_cases hx : x = a
      · subst hx
        obtain ⟨m, hm, hkind⟩ := (SameNames.of_vfsTruncate hw).symlink hn'
        rw [vfsTruncate, Vfs.load_live hm, Exec.ret_bind, if_pos (.inr (hkind.trans hlink))] at hw
        cases hw
        exact htexts x n' hn' hlink
      · exact hsame ((OnlyAt.of_vfsTruncate hw).node x hx) fun he => hx (Option.some.inj he).symm
  | unlink c path =>
      obtain ⟨⟨w, r⟩, hw, hs⟩ := Exec.bind_eq_ret.mp hs
      cases hs
      rcases vfsUnlink_effect hw with ⟨_, rfl⟩ | ⟨b, hb, hu⟩
      · exact htexts x n' hn' hlink
      · obtain ⟨m, hu⟩ := unlinkNode_ret hu
        exact hremoved b hb hu.node
  | rmdir c path =>
      obtain ⟨⟨w, r⟩, hw, hs⟩ := Exec.bind_eq_ret.mp hs
      cases hs
      rcases vfsRmdir_effect hw with rfl | ⟨b, hb, hu⟩
      · exact htexts x n' hn' hlink
      · obtain ⟨m, hu⟩ := unlinkNode_ret hu
        exact hremoved b hb hu.node
  | mkdir c path =>
      obtain ⟨⟨w, r⟩, hw, hs⟩ := Exec.bind_eq_ret.mp hs
      cases hs
      rcases vfsMkdir_effect hw with hu | ⟨a, m, hm, _, hmode⟩
      · exact hsame (congrFun hu.node x) hidle
      · rcases hm.old hn' with ⟨_, rfl⟩ | he
        · exact hplain (isSymlinkNode_plain (.inl hmode))
        · exact hsame he hidle
  | link c path targetPath =>
      obtain ⟨⟨w, r⟩, hw, hs⟩ := Exec.bind_eq_ret.mp hs
      cases hs
      rcases vfsLink_effect ht.fresh hw with hu | ⟨a, target, k, m, t, hl, _, hmode⟩
      · exact hsame (congrFun hu.node x) hidle
      · rw [hl.node] at hn'
        by_cases hx : x = a
        · rw [hx, Function.update_self, Option.some.injEq] at hn'
          subst hn'
          have hlink' : isSymlinkNode t = true := by
            rw [isSymlinkNode, ← hmode]
            exact hlink
          have hdata : m.data = t.data := (congrArg Blob.data hl.shares).trans rfl
          exact Terminated.kept (htexts target t hl.live hlink') hdata fun d _ => congrFun hl.buf d
        · rw [Function.update_of_ne hx] at hn'
          by_cases hxt : x = target
          · rw [hxt, Function.update_self, Option.some.injEq] at hn'
            subst hn'
            have hlive : v.node x = some t := hxt ▸ hl.live
            exact hold hlive rfl rfl hidle
          · rw [Function.update_of_ne hxt] at hn'
            exact hold hn' rfl rfl hidle
  | symlink c target linkpath =>
      obtain ⟨⟨w, r⟩, hw, hs⟩ := Exec.bind_eq_ret.mp hs
      cases hs
      rcases vfsSymlink_effect hw with hu | ⟨a, m, hm, _, hterm⟩
      · exact hsame (congrFun hu.node x) hidle
      · rcases hm.old hn' with ⟨_, rfl⟩ | he
        · exact .inr hterm
        · exact hsame he hidle
  | rename c oldpath newpath =>
      obtain ⟨⟨w, r⟩, hw, hs⟩ := Exec.bind_eq_ret.mp hs
      cases hs
      rcases vfsRename_effect hw with ⟨_, rfl⟩ | ⟨b, _, hr⟩
      · exact htexts x n' hn' hlink
      · obtain ⟨m, _, rfl⟩ := renameNode_ret hr
        obtain ⟨m', hm', rfl⟩ := Option.map_eq_some_iff.mp hn'
        exact hold hm' rfl rfl hidle

/-- In every run in which allocations succeed. -/
theorem LinkTexts.of_reach (h : blobSystem.Reach v) : LinkTexts v := by
  suffices hall : (BlobInv v ∧ NodeTable v) ∧ LinkTexts v from hall.2
  refine System.ReachVia.invariant (I := fun v => (BlobInv v ∧ NodeTable v) ∧ LinkTexts v)
    (fun v hb => ⟨⟨.of_boot hb, .of_boot hb.1⟩, ?_⟩)
    (fun v call v' hi _ hs => ⟨⟨(blob_step hi.1.1 hi.1.2 hs).inv, hi.1.2.step hs⟩, hi.2.step hi.1.1 hi.1.2 hs⟩) h
  obtain ⟨⟨mem, fb, rfl⟩, -⟩ := hb
  intro a n hn _
  by_cases ha : a = rootAddr
  · subst ha
    obtain rfl : rootNode = n := Option.some.inj hn
    exact .inl rfl
  · exact absurd hn (by simp [emptyVfs, ha])

end Texts

/-- Links in a row, from `/1` to `/9`. -/
def linksInRow : List VfsCall :=
  [.symlink rootCaller (str "2") (str "/1"), .symlink rootCaller (str "3") (str "/2"),
   .symlink rootCaller (str "4") (str "/3"), .symlink rootCaller (str "5") (str "/4"),
   .symlink rootCaller (str "6") (str "/5"), .symlink rootCaller (str "7") (str "/6"),
   .symlink rootCaller (str "8") (str "/7"), .symlink rootCaller (str "9") (str "/8")]

theorem linksInRow_hops : ∃ v, vfsCalls (emptyVfs (memoryOf 0) none) linksInRow = .ret v ∧
    linkHop v (str "/1") = .on (str "/2") ∧ Leads (linkHop v) 7 (str "/2") (str "/9") ∧
    linkHop v (str "/9") = .stop := by
  have hv : ∃ v, vfsCalls (emptyVfs (memoryOf 0) none) linksInRow = .ret v ∧
      linkHop v (str "/1") = .on (str "/2") ∧ linkHop v (str "/2") = .on (str "/3") ∧
      linkHop v (str "/3") = .on (str "/4") ∧ linkHop v (str "/4") = .on (str "/5") ∧
      linkHop v (str "/5") = .on (str "/6") ∧ linkHop v (str "/6") = .on (str "/7") ∧
      linkHop v (str "/7") = .on (str "/8") ∧ linkHop v (str "/8") = .on (str "/9") ∧
      linkHop v (str "/9") = .stop :=
    ⟨_, rfl, by decide, by decide, by decide, by decide, by decide, by decide, by decide, by decide, by decide⟩
  obtain ⟨v, hv, h₁, h₂, h₃, h₄, h₅, h₆, h₇, h₈, hend⟩ := hv
  exact ⟨v, hv, h₁, .step h₂ (.step h₃ (.step h₄ (.step h₅ (.step h₆ (.step h₇ (.step h₈ (.refl _))))))), hend⟩

/-- From `/2` it is seven links, which are followed. -/
theorem seven_followed : ∃ v, vfsCalls (emptyVfs (memoryOf 0) none) linksInRow = .ret v ∧
    FollowsUpTo v 8 (str "/2") := by
  obtain ⟨v, hv, -, hleads, hend⟩ := linksInRow_hops
  have hreach := reach_vfsCalls (S := blobSystem) id (.init ⟨⟨memoryOf 0, none, rfl⟩, nofun⟩) linksInRow hv
  have hresolved : ResolvedPath (str "/2") := .resolve (str "/2") .root
  refine ⟨v, hv, (follow_eight_iff (BlobInv.of_reach hreach).2 (.of_reach hreach) hresolved).2.mpr ?_⟩
  rintro ⟨q, hq, hstop⟩
  have hsame := hleads.end_unique hend hq (linkHop_stop.mpr hstop)
  exact absurd hsame.1 (by decide)

/-- From `/1` it is eight, and `/9` is no link. -/
theorem eight_not_followed : ∃ v, vfsCalls (emptyVfs (memoryOf 0) none) linksInRow = .ret v ∧
    ResolvedPath (str "/1") ∧ ¬FollowsUpTo v 8 (str "/1") := by
  have hrun : ∃ v, vfsCalls (emptyVfs (memoryOf 0) none) linksInRow = .ret v ∧
      followSymlinks v (str "/1") = .ret none := ⟨_, rfl, rfl⟩
  obtain ⟨v, hv, hfirst, hleads, hend⟩ := linksInRow_hops
  obtain ⟨w, hw, hnone⟩ := hrun
  obtain rfl : v = w := Exec.ret.inj (hv.symm.trans hw)
  refine ⟨v, hv, .resolve (str "/1") .root, ?_⟩
  rintro ⟨r, hr, h⟩
  have hsome := (h (str "/9")).mpr ⟨8, Nat.le_refl _, .step hfirst hleads, hend⟩
  rw [hr, hsome] at hnone
  cases hnone

end LiteBSD
