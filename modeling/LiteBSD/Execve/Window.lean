/-
# `LiteBSD.Execve.Window` — where the loader stores

`execve` clears `[USER_LOAD_ADDR, USER_LOAD_ADDR + clear_end)`, which is also
what it records as `img_size` and what a child keeps a copy of.  Then it loads
the segments, and does not look at `clear_end` again:

| store | goes to | is in the window when |
| copy of a segment | `p_vaddr`, as many bytes as the file has | no further than the end of some segment |
| zeros behind it | up to `p_vaddr + p_memsz` | in the 4 MiB that `clear_end` is cut to |

Both want `p_vaddr` not to be below the window, where the subtraction of
`USER_LOAD_ADDR` wraps and `clear_end` comes out small.  Nothing of this is
checked; `loads_in_window_iff` says that it is all there is to check.
-/
import LiteBSD.Execve.Failure
import LiteBSD.Execve.Start
import LiteBSD.Lib.Patch

namespace LiteBSD.Execve

/-! ## Stores -/

section Stores

variable {f g : (Nat → UInt8) → Exec (Nat → UInt8)} {p q : Option (Lib.Patch Nat UInt8)} {W : Nat → Prop}

/-- `f` is one patch for all memories, or never returns. -/
def IsPatch (f : (Nat → UInt8) → Exec (Nat → UInt8)) : Option (Lib.Patch Nat UInt8) → Prop
  | some p => ∀ mem, f mem = .ret (p.on mem)
  | none => ∀ mem mem', f mem ≠ .ret mem'

/-- All that `f` stores, it stores in `W`. -/
def Within (W : Nat → Prop) (f : (Nat → UInt8) → Exec (Nat → UInt8)) : Prop :=
  ∀ mem, ∃ mem', f mem = .ret mem' ∧ ∀ a, ¬W a → mem' a = mem a

theorem IsPatch.within_iff (h : IsPatch f p) : Within W f ↔ ∃ p', p = some p' ∧ ∀ a, p'.Sets a → W a := by
  cases p with
  | none =>
      refine ⟨fun hw => ?_, nofun⟩
      obtain ⟨mem', he, _⟩ := hw fun _ => 0
      exact absurd he (h _ _)
  | some p =>
      have hon : Within W f ↔ ∀ mem a, ¬W a → p.on mem a = mem a := by
        refine forall_congr' fun mem => ?_
        rw [h mem]
        constructor
        · rintro ⟨mem', he, hout⟩
          cases he
          exact hout
        · exact fun hout => ⟨_, rfl, hout⟩
      have : Nontrivial UInt8 := ⟨0, 1, by decide⟩
      rw [hon, Lib.Patch.stays_iff]
      simp

theorem IsPatch.bind (hf : IsPatch f p) (hg : IsPatch g q) :
    IsPatch (fun mem => f mem >>= g) (p.bind fun p' => q.map p'.andThen) := by
  cases p with
  | none =>
      intro mem mem' he
      obtain ⟨m, hm, _⟩ := Exec.bind_eq_ret.mp he
      exact hf _ _ hm
  | some p =>
      cases q with
      | none =>
          intro mem mem' he
          obtain ⟨m, _, hm⟩ := Exec.bind_eq_ret.mp he
          exact hg _ _ hm
      | some q =>
          intro mem
          dsimp only [Option.bind_some, Option.map_some]
          rw [hf mem, Exec.ret_bind, hg, Lib.Patch.on_andThen]

/-- Two stores are in `W` if each of them is. -/
theorem within_bind_iff (hf : IsPatch f p) (hg : IsPatch g q) :
    Within W (fun mem => f mem >>= g) ↔ Within W f ∧ Within W g := by
  rw [(hf.bind hg).within_iff, hf.within_iff, hg.within_iff]
  cases p with
  | none => simp
  | some p =>
      cases q with
      | none => simp
      | some q => simp [Lib.Patch.sets_andThen, or_imp, forall_and]

theorem isPatch_ret : IsPatch .ret (some fun _ => none) := fun _ => rfl

theorem within_ret : Within W .ret := fun mem => ⟨mem, rfl, fun _ _ => rfl⟩

/-- The cells of `src`, from `address` on. -/
def stored (address : Nat) (src : List UInt8) : Lib.Patch Nat UInt8 :=
  fun a => if address ≤ a then src[a - address]? else none

theorem stored_on (address : Nat) (src : List UInt8) (mem : Nat → UInt8) :
    (stored address src).on mem = fun a => if address ≤ a then (src[a - address]?).getD (mem a) else mem a := by
  funext a
  unfold Lib.Patch.on stored
  split <;> rfl

theorem sets_stored {address a : Nat} {src : List UInt8} :
    (stored address src).Sets a ↔ address ≤ a ∧ a < address + src.length := by
  unfold Lib.Patch.Sets stored
  split
  · rename_i hle
    rw [Option.isSome_iff_exists]
    constructor
    · rintro ⟨x, hx⟩
      obtain ⟨hlt, _⟩ := List.getElem?_eq_some_iff.mp hx
      exact ⟨hle, by omega⟩
    · rintro ⟨_, hlt⟩
      exact ⟨_, List.getElem?_eq_getElem (show a - address < src.length by omega)⟩
  · rename_i hlt
    simp [hlt]

/-- What a store of `src` at `address` sets, if it is one. -/
def storePatch (address : Nat) (src : List UInt8) : Option (Lib.Patch Nat UInt8) :=
  if src = [] then some fun _ => none
  else if inRange address src.length then some (stored address src)
  else none

theorem storeMem_isPatch (address : Nat) (src : List UInt8) :
    IsPatch (fun mem => storeMem mem address src) (storePatch address src) := by
  unfold storePatch storeMem
  split
  · exact isPatch_ret
  · split
    · exact fun mem => congrArg Exec.ret (stored_on address src mem).symm
    · exact nofun

/-- The addresses of the window. -/
def InWindow (clearEnd a : Nat) : Prop := userLoadAddr ≤ a ∧ a < userLoadAddr + clearEnd

/-- A store is in the window when its first and its last byte are. -/
theorem within_storeMem {clearEnd address : Nat} {src : List UInt8} (hc : clearEnd ≤ 0x400000) :
    Within (InWindow clearEnd) (fun mem => storeMem mem address src) ↔
      src = [] ∨ userLoadAddr ≤ address ∧ address + src.length ≤ userLoadAddr + clearEnd := by
  by_cases hsrc : src = []
  · refine iff_of_true ?_ (.inl hsrc)
    simpa [storeMem, hsrc] using within_ret
  have hpos := List.length_pos_iff.mpr hsrc
  have hload : userLoadAddr = 0x8000000 := rfl
  rw [(storeMem_isPatch address src).within_iff, storePatch, if_neg hsrc]
  constructor
  · rintro ⟨p, hp, hsets⟩
    split at hp
    · cases hp
      have hfirst := hsets address (sets_stored.mpr ⟨Nat.le_refl _, by omega⟩)
      have hlast := hsets (address + src.length - 1) (sets_stored.mpr ⟨by omega, by omega⟩)
      exact .inr ⟨hfirst.1, by have := hlast.2; omega⟩
    · cases hp
  · intro hfits
    obtain ⟨hlo, hhi⟩ := hfits.resolve_left hsrc
    have hrange : inRange address src.length = true := by
      refine decide_eq_true ⟨?_, ?_⟩ <;> omega
    rw [if_pos hrange]
    refine ⟨_, rfl, fun a hset => ?_⟩
    obtain ⟨hge, hlt⟩ := sets_stored.mp hset
    exact ⟨by omega, by omega⟩

/-- Zeros are stored like other bytes. -/
theorem zeroMem_eq (mem : Nat → UInt8) (address n : Nat) :
    zeroMem mem address n = storeMem mem address (List.replicate n 0) := by
  simp only [zeroMem, storeMem, List.length_replicate, List.replicate_eq_nil_iff]
  split
  · rfl
  · split
    · refine congrArg Exec.ret (funext fun a => ?_)
      rw [List.getElem?_replicate]
      by_cases ha : address ≤ a
      · rw [if_pos ha]
        by_cases hlt : a - address < n
        · rw [if_pos hlt, if_pos ⟨ha, by omega⟩]
          rfl
        · rw [if_neg hlt, if_neg fun hin => hlt (by omega)]
          rfl
      · rw [if_neg ha, if_neg fun hin => ha hin.1]
    · rfl

end Stores

/-! ## Segments -/

section Segments

variable {v : Vfs} {node : Nat} {h : Header} {seg : Segment}

/-- The table has this segment to load. -/
def Loads (v : Vfs) (node : Nat) (h : Header) (seg : Segment) : Prop :=
  ∃ i < h.phnum, readSegment v node h i = .ret (some seg) ∧ seg.ptype = elfPtLoad

/-- `seg_end` -/
def Segment.stop (seg : Segment) : Nat := u32 (sub32 seg.vaddr userLoadAddr + seg.memsz)

/-- The bytes that `vfs_read` puts at `p_vaddr`. -/
def Copies (v : Vfs) (node : Nat) (seg : Segment) (bytes : List UInt8) : Prop :=
  if seg.filesz > 0 ∧ seg.vaddr ≠ 0 then ∃ r, vfsRead v node seg.offset seg.filesz = .ret (bytes, r)
  else bytes = []

theorem le32_lt (b : List UInt8) : le32 b < 4294967296 := by
  have hbyte : ∀ i, (b.getD i 0).toNat < 256 := fun i => (b.getD i 0).toNat_lt
  have h0 := hbyte 0
  have h1 := hbyte 1
  have h2 := hbyte 2
  have h3 := hbyte 3
  unfold le32
  omega

/-- The words of a segment that was read are words. -/
theorem Loads.vaddr_lt (hseg : Loads v node h seg) : seg.vaddr < 4294967296 := by
  obtain ⟨i, _, hread, _⟩ := hseg
  obtain ⟨⟨ph, ret⟩, _, hread⟩ := Exec.bind_eq_ret.mp hread
  dsimp only at hread
  split at hread
  · cases hread
  · cases hread
    exact le32_lt _

/-- The address of a segment is `p_vaddr`. -/
theorem dest_eq (hlt : seg.vaddr < 4294967296) : u32 (userLoadAddr + sub32 seg.vaddr userLoadAddr) = seg.vaddr := by
  unfold u32 sub32 userLoadAddr
  omega

/-- A segment is two stores. -/
theorem loadSegment_eq (hlt : seg.vaddr < 4294967296) {bytes : List UInt8} (hc : Copies v node seg bytes)
    (mem : Nat → UInt8) :
    loadSegment v node mem seg = storeMem mem seg.vaddr bytes >>= fun mem =>
      storeMem mem (seg.vaddr + seg.filesz) (List.replicate (seg.memsz - seg.filesz) 0) := by
  have hzero : ∀ m, (if seg.memsz > seg.filesz then zeroMem m (seg.vaddr + seg.filesz) (seg.memsz - seg.filesz)
      else .ret m) = storeMem m (seg.vaddr + seg.filesz) (List.replicate (seg.memsz - seg.filesz) 0) := by
    intro m
    split
    · exact zeroMem_eq _ _ _
    · rename_i hle
      rw [Nat.sub_eq_zero_of_le (Nat.le_of_not_lt hle)]
      rfl
  unfold loadSegment
  simp only [dest_eq hlt, hzero]
  unfold Copies at hc
  split at hc
  · rename_i hcopy
    obtain ⟨r, hr⟩ := hc
    simp only [hcopy, hr, ne_eq, not_false_eq_true, and_self, if_true, Exec.ret_bind]
  · rename_i hcopy
    subst hc
    simp only [ne_eq] at hcopy
    simp only [ne_eq, if_neg hcopy, storeMem, if_true]

/-- Without the bytes nothing is stored. -/
theorem copies_of_loadSegment (hlt : seg.vaddr < 4294967296) {mem mem' : Nat → UInt8}
    (hl : loadSegment v node mem seg = .ret mem') : ∃ bytes, Copies v node seg bytes := by
  unfold Copies
  split
  · rename_i hcopy
    unfold loadSegment at hl
    rw [dest_eq hlt] at hl
    dsimp only at hl
    rw [if_pos hcopy] at hl
    obtain ⟨⟨bytes, r⟩, hr, _⟩ := Exec.bind_eq_ret.mp hl
    exact ⟨bytes, r, hr⟩
  · exact ⟨[], rfl⟩

theorem Copies.unique {bytes bytes' : List UInt8} (hc : Copies v node seg bytes) (hc' : Copies v node seg bytes') :
    bytes = bytes' := by
  unfold Copies at hc hc'
  split at hc
  · rename_i hcopy
    rw [if_pos hcopy] at hc'
    obtain ⟨r, hr⟩ := hc
    obtain ⟨r', hr'⟩ := hc'
    rw [hr] at hr'
    cases hr'
    rfl
  · rename_i hcopy
    rw [if_neg hcopy] at hc'
    rw [hc, hc']

/-- Loading a segment is a patch. -/
theorem loadSegment_isPatch (v : Vfs) (node : Nat) (hlt : seg.vaddr < 4294967296) :
    ∃ p, IsPatch (fun mem => loadSegment v node mem seg) p := by
  by_cases hc : ∃ bytes, Copies v node seg bytes
  · obtain ⟨bytes, hc⟩ := hc
    have hboth := (storeMem_isPatch seg.vaddr bytes).bind
      (storeMem_isPatch (seg.vaddr + seg.filesz) (List.replicate (seg.memsz - seg.filesz) 0))
    rw [← funext (loadSegment_eq hlt hc)] at hboth
    exact ⟨_, hboth⟩
  · exact ⟨none, fun _ _ hl => hc (copies_of_loadSegment hlt hl)⟩

/-- What keeps a segment in the window. -/
theorem within_loadSegment {clearEnd : Nat} (hc : clearEnd ≤ 0x400000) (hlt : seg.vaddr < 4294967296) :
    Within (InWindow clearEnd) (fun mem => loadSegment v node mem seg) ↔
      (∃ bytes, Copies v node seg bytes ∧
        (bytes = [] ∨ userLoadAddr ≤ seg.vaddr ∧ seg.vaddr + bytes.length ≤ userLoadAddr + clearEnd)) ∧
      (seg.memsz > seg.filesz →
        userLoadAddr ≤ seg.vaddr + seg.filesz ∧ seg.vaddr + seg.memsz ≤ userLoadAddr + clearEnd) := by
  have hboth : ∀ {bytes}, Copies v node seg bytes →
      (Within (InWindow clearEnd) (fun mem => loadSegment v node mem seg) ↔
        (bytes = [] ∨ userLoadAddr ≤ seg.vaddr ∧ seg.vaddr + bytes.length ≤ userLoadAddr + clearEnd) ∧
        (seg.memsz > seg.filesz →
          userLoadAddr ≤ seg.vaddr + seg.filesz ∧ seg.vaddr + seg.memsz ≤ userLoadAddr + clearEnd)) := by
    intro bytes hb
    rw [funext (loadSegment_eq hlt hb), within_bind_iff (storeMem_isPatch _ _) (storeMem_isPatch _ _),
      within_storeMem hc, within_storeMem hc, List.replicate_eq_nil_iff, List.length_replicate]
    refine and_congr_right' ?_
    rw [or_iff_not_imp_left]
    refine ⟨fun h hgt => ?_, fun h hne => ?_⟩
    · obtain ⟨hlo, hhi⟩ := h (by omega)
      exact ⟨hlo, by omega⟩
    · obtain ⟨hlo, hhi⟩ := h (by omega)
      exact ⟨hlo, by omega⟩
  constructor
  · intro hw
    obtain ⟨mem', hl, _⟩ := hw fun _ => 0
    obtain ⟨bytes, hb⟩ := copies_of_loadSegment hlt hl
    obtain ⟨hcopy, hbss⟩ := (hboth hb).mp hw
    exact ⟨⟨bytes, hb, hcopy⟩, hbss⟩
  · rintro ⟨⟨bytes, hb, hcopy⟩, hbss⟩
    exact (hboth hb).mpr ⟨hcopy, hbss⟩

/-! ## The table -/

/-- The segments from entry `i` of the table on, all there. -/
inductive Table (v : Vfs) (node : Nat) (h : Header) : Nat → List Segment → Prop
  | nil {i : Nat} : Table v node h i []
  | cons {i : Nat} {seg : Segment} {segs : List Segment} : readSegment v node h i = .ret (some seg) →
      Table v node h (i + 1) segs → Table v node h i (seg :: segs)

/-- The later of the end so far and that of a segment. -/
def furthest (clearEnd : Nat) (seg : Segment) : Nat := if seg.stop > clearEnd then seg.stop else clearEnd

/-- Loading segments one after the other. -/
def loadAll (v : Vfs) (node : Nat) : List Segment → (Nat → UInt8) → Exec (Nat → UInt8)
  | [], mem => .ret mem
  | seg :: segs, mem => loadSegment v node mem seg >>= loadAll v node segs

/-- What is to be loaded of a table. -/
def toLoad (segs : List Segment) : List Segment := segs.filter (·.ptype = elfPtLoad)

/-- The first pass reads the table. -/
theorem table_of_scanLoop {rounds i c last : Nat} (hs : scanLoop v node h rounds i c = .ret (some last)) :
    ∃ segs, Table v node h i segs ∧ segs.length = rounds ∧ last = (toLoad segs).foldl furthest c := by
  induction rounds generalizing i c with
  | zero =>
      cases hs
      exact ⟨[], .nil, rfl, rfl⟩
  | succ rounds ih =>
      obtain ⟨found, hseg, hs⟩ := Exec.bind_eq_ret.mp hs
      cases found with
      | none => cases hs
      | some seg =>
          dsimp only at hs
          split at hs
          · rename_i hskip
            obtain ⟨segs, htable, hlen, hlast⟩ := ih hs
            refine ⟨seg :: segs, .cons hseg htable, congrArg Nat.succ hlen, ?_⟩
            rw [toLoad, List.filter_cons_of_neg (by simpa using hskip), hlast]
            rfl
          · rename_i hload
            obtain ⟨segs, htable, hlen, hlast⟩ := ih hs
            refine ⟨seg :: segs, .cons hseg htable, congrArg Nat.succ hlen, ?_⟩
            rw [toLoad, List.filter_cons_of_pos (by simpa using hload), hlast]
            rfl

/-- The second pass loads what is to be loaded of the table. -/
theorem Table.loadLoop {i : Nat} {segs : List Segment} (ht : Table v node h i segs) (mem : Nat → UInt8) :
    loadLoop v node h segs.length i mem = loadAll v node (toLoad segs) mem >>= fun mem' => .ret (mem', true) := by
  induction ht generalizing mem with
  | nil => rfl
  | @cons i seg segs hseg _ ih =>
      rw [List.length_cons, LiteBSD.Execve.loadLoop, hseg, Exec.ret_bind]
      dsimp only
      split
      · rename_i hskip
        rw [ih, toLoad, toLoad, List.filter_cons_of_neg (by simpa using hskip)]
      · rename_i hload
        rw [toLoad, List.filter_cons_of_pos (by simpa using hload), loadAll, Exec.bind_assoc]
        exact congrArg (loadSegment v node mem seg >>= ·) (funext ih)

theorem Table.mem {i : Nat} {segs : List Segment} (ht : Table v node h i segs) :
    seg ∈ segs ↔ ∃ j < segs.length, readSegment v node h (i + j) = .ret (some seg) := by
  induction ht with
  | nil => simp
  | @cons i first segs hfirst _ ih =>
      rw [List.mem_cons, ih]
      constructor
      · rintro (rfl | ⟨j, hj, hread⟩)
        · exact ⟨0, Nat.succ_pos _, hfirst⟩
        · refine ⟨j + 1, Nat.succ_lt_succ hj, ?_⟩
          rwa [Nat.add_right_comm] at hread
      · rintro ⟨j, hj, hread⟩
        cases j with
        | zero =>
            rw [Nat.add_zero, hfirst] at hread
            cases hread
            exact .inl rfl
        | succ j =>
            refine .inr ⟨j, Nat.lt_of_succ_lt_succ hj, ?_⟩
            rwa [Nat.add_right_comm]

theorem Table.toLoad {segs : List Segment} (ht : Table v node h 0 segs) (hlen : segs.length = h.phnum) :
    seg ∈ toLoad segs ↔ Loads v node h seg := by
  rw [LiteBSD.Execve.toLoad, List.mem_filter, ht.mem, hlen, decide_eq_true_iff]
  simp only [Nat.zero_add, Loads]
  constructor
  · rintro ⟨⟨i, hi, hread⟩, hload⟩
    exact ⟨i, hi, hread, hload⟩
  · rintro ⟨i, hi, hread, hload⟩
    exact ⟨⟨i, hi, hread⟩, hload⟩

/-- How far the segments reach. -/
theorem lt_foldl_furthest {segs : List Segment} {c x : Nat} :
    x < segs.foldl furthest c ↔ x < c ∨ ∃ seg ∈ segs, x < seg.stop := by
  induction segs generalizing c with
  | nil => simp
  | cons seg segs ih =>
      have hmax : x < furthest c seg ↔ x < c ∨ x < seg.stop := by
        unfold furthest
        split <;> omega
      rw [List.foldl_cons, ih, hmax]
      simp only [List.mem_cons, exists_eq_or_imp, or_assoc]

/-- Loading segments is a patch. -/
theorem loadAll_isPatch {segs : List Segment} (hlt : ∀ seg ∈ segs, seg.vaddr < 4294967296) :
    ∃ p, IsPatch (loadAll v node segs) p := by
  induction segs with
  | nil => exact ⟨_, isPatch_ret⟩
  | cons seg segs ih =>
      obtain ⟨p, hp⟩ := @loadSegment_isPatch seg v node (hlt seg List.mem_cons_self)
      obtain ⟨q, hq⟩ := ih fun s hs => hlt s (List.mem_cons_of_mem _ hs)
      exact ⟨_, hp.bind hq⟩

/-- All segments are loaded into the window exactly if each of them is. -/
theorem within_loadAll {W : Nat → Prop} {segs : List Segment} (hlt : ∀ seg ∈ segs, seg.vaddr < 4294967296) :
    Within W (loadAll v node segs) ↔ ∀ seg ∈ segs, Within W (fun mem => loadSegment v node mem seg) := by
  induction segs with
  | nil => exact iff_of_true within_ret nofun
  | cons seg segs ih =>
      obtain ⟨p, hp⟩ := @loadSegment_isPatch seg v node (hlt seg List.mem_cons_self)
      have hrest : ∀ s ∈ segs, s.vaddr < 4294967296 := fun s hs => hlt s (List.mem_cons_of_mem _ hs)
      obtain ⟨q, hq⟩ := @loadAll_isPatch v node segs hrest
      rw [List.forall_mem_cons, ← ih hrest]
      exact within_bind_iff hp hq

end Segments

/-! ## The window -/

/-- Every store of the second pass is in the window. -/
def LoadsWithin (v : Vfs) (node : Nat) (h : Header) (clearEnd : Nat) : Prop :=
  ∀ mem, ∃ mem' ok, loadLoop v node h h.phnum 0 mem = .ret (mem', ok) ∧ ∀ a, ¬InWindow clearEnd a → mem' a = mem a

/-- A segment that stays in the window: what the file has of it ends no later
than some segment does, and the zeros behind it are in the 4 MiB. -/
def Fits (v : Vfs) (node : Nat) (h : Header) (seg : Segment) : Prop :=
  (∃ bytes, Copies v node seg bytes ∧
    (bytes = [] ∨ userLoadAddr ≤ seg.vaddr ∧ seg.vaddr + bytes.length ≤ userLoadAddr + 0x400000 ∧
      ∃ last, Loads v node h last ∧ seg.vaddr + bytes.length ≤ userLoadAddr + last.stop)) ∧
  (seg.memsz > seg.filesz →
    userLoadAddr ≤ seg.vaddr + seg.filesz ∧ seg.vaddr + seg.memsz ≤ userLoadAddr + 0x400000)

/-- The headers of the file have passed the checks, and the window is cleared
in `s₀`. -/
def PassesChecks (s₁ : State) (node : Nat) (s₀ : State) (h : Header) (clearEnd : Nat) : Prop :=
  ∃ header last, vfsRead s₁.vfs node 0 52 = .ret (header, 52) ∧ h = headerOf header ∧
    scanLoop s₁.vfs node h h.phnum 0 0 = .ret (some last) ∧ clearEnd = min last 0x400000 ∧ clearEnd ≠ 0 ∧
    takeSnapshot s₁ = .ret s₀

section Window

variable {s s' s₁ s₀ : State} {path argvU envpU node stack clearEnd : Nat} {script : Script} {envv : Vec} {h : Header}

/-- Segments that are read the same are the same table. -/
theorem Table.congr {v w : Vfs} {i : Nat} {segs : List Segment} (ht : Table v node h i segs)
    (hsame : ∀ o c, vfsRead w node o c = vfsRead v node o c) : Table w node h i segs := by
  induction ht with
  | nil => exact .nil
  | cons hseg _ ih =>
      refine .cons ?_ ih
      rw [readSegment, hsame]
      exact hseg

/-- The copy for the parent leaves the file as it is. -/
theorem StartsLoading.read (hv : Settled s.vfs) (hl : StartsLoading s path argvU envpU s₁ node stack script envv)
    (hs : takeSnapshot s₁ = .ret s₀) (o c : Nat) : vfsRead s₀.vfs node o c = vfsRead s₁.vfs node o c := by
  obtain ⟨d, args, envs, hstage, _, _, _, _, _⟩ := hl.stage hv
  cases ht : s₁.task with
  | none =>
      unfold takeSnapshot at hs
      rw [ht] at hs
      cases hs
      rfl
  | some t =>
      obtain ⟨hkeep, snap, n, hstage₀, _, _⟩ := takeSnapshot_spec hstage ht hs
      exact hstage.read hstage₀ hv hkeep o c

/-- The end of `execve` stores in the new stack only, and records the size. -/
theorem enterImage_started {entry : Nat} {args : Vec}
    (he : enterImage s stack entry clearEnd script.path args envv = .ret (s', 0)) :
    s'.mem = s.mem ∧ ∃ t, s'.task = some t ∧ t.imgSize = clearEnd := by
  obtain ⟨_, _, he⟩ := Exec.bind_eq_ret.mp he
  obtain ⟨_, _, he⟩ := Exec.bind_eq_ret.mp he
  obtain ⟨_, _, he⟩ := Exec.bind_eq_ret.mp he
  obtain ⟨pushed, _, he⟩ := Exec.bind_eq_ret.mp he
  obtain ⟨v, _, he⟩ := Exec.bind_eq_ret.mp he
  split at he
  · obtain ⟨_, _, he⟩ := Exec.bind_eq_ret.mp he
    cases he
  · obtain ⟨m, _, he⟩ := Exec.bind_eq_ret.mp he
    split at he
    · obtain ⟨_, _, he⟩ := Exec.bind_eq_ret.mp he
      cases he
    · obtain ⟨_, _, he⟩ := Exec.bind_eq_ret.mp he
      cases he
      exact ⟨rfl, _, rfl, rfl⟩

theorem takeSnapshot_mem (hs : takeSnapshot s₁ = .ret s₀) : s₀.mem = s₁.mem := by
  unfold takeSnapshot at hs
  split at hs
  · split at hs
    · obtain ⟨⟨v, snap⟩, _, hs⟩ := Exec.bind_eq_ret.mp hs
      cases snap <;> cases hs <;> rfl
    · cases hs
      rfl
  · cases hs
    rfl

theorem not_abandon {v : Vfs} {argv : Vec} : ¬abandon s v node stack argv envv = .ret (s', 0) := by
  intro ha
  obtain ⟨_, _, ha⟩ := Exec.bind_eq_ret.mp ha
  obtain ⟨_, _, ha⟩ := Exec.bind_eq_ret.mp ha
  obtain ⟨_, _, ha⟩ := Exec.bind_eq_ret.mp ha
  cases ha

/-- A call that succeeds has passed the checks. -/
theorem checks_of_success (hl : StartsLoading s path argvU envpU s₁ node stack script envv)
    (he : sysExecveImpl s path argvU envpU = .ret (s', 0)) : ∃ s₀ h clearEnd, PassesChecks s₁ node s₀ h clearEnd := by
  rw [hl.call] at he
  obtain ⟨⟨header, ret⟩, hread, he⟩ := Exec.bind_eq_ret.mp he
  dsimp only at he
  split at he
  · exact absurd he not_abandon
  · rename_i hall
    obtain rfl : ret = 52 := Decidable.not_not.mp hall
    obtain ⟨scanned, hscan, he⟩ := Exec.bind_eq_ret.mp he
    cases scanned with
    | none => exact absurd he not_abandon
    | some last =>
        dsimp only at he
        split at he
        · exact absurd he not_abandon
        · rename_i hne
          obtain ⟨s₀, hsnap, _⟩ := Exec.bind_eq_ret.mp he
          exact ⟨s₀, headerOf header, _, header, last, hread, rfl, hscan, rfl, hne, hsnap⟩

/-- What a call that succeeds does behind the checks. -/
theorem loading_of_success (hl : StartsLoading s path argvU envpU s₁ node stack script envv)
    (hc : PassesChecks s₁ node s₀ h clearEnd) (he : sysExecveImpl s path argvU envpU = .ret (s', 0)) :
    ∃ mem, zeroMem s.mem userLoadAddr clearEnd = .ret mem ∧
      loadLoop s₀.vfs node h h.phnum 0 mem = .ret (s'.mem, true) ∧ ∃ t, s'.task = some t ∧ t.imgSize = clearEnd := by
  obtain ⟨header, last, hread, rfl, hscan, rfl, hne, hsnap⟩ := hc
  rw [hl.call, loadImage, hread, Exec.ret_bind] at he
  dsimp only at he
  rw [if_neg (by decide), hscan, Exec.ret_bind] at he
  dsimp only at he
  rw [if_neg hne, hsnap, Exec.ret_bind] at he
  obtain ⟨mem, hmem, he⟩ := Exec.bind_eq_ret.mp he
  obtain ⟨⟨mem', ok⟩, hload, he⟩ := Exec.bind_eq_ret.mp he
  dsimp only at he
  cases ok with
  | false => exact absurd he not_abandon
  | true =>
      obtain ⟨v, _, he⟩ := Exec.bind_eq_ret.mp he
      obtain ⟨hsame, hsize⟩ := enterImage_started he
      have hs : s₁.mem = s.mem := by
        obtain ⟨_, _, _, _, _, _, _, _, _, _, _, _, rfl⟩ := hl
        rfl
      rw [takeSnapshot_mem hsnap, hs] at hmem
      dsimp only at hsame
      rw [hsame]
      exact ⟨mem, hmem, hload, hsize⟩

/-- An end is in the window when it is in the 4 MiB and not behind all
segments. -/
theorem le_window_iff {segs : List Segment} {x : Nat} (hx : userLoadAddr < x) :
    x ≤ userLoadAddr + min (segs.foldl furthest 0) 0x400000 ↔
      x ≤ userLoadAddr + 0x400000 ∧ ∃ seg ∈ segs, x ≤ userLoadAddr + seg.stop := by
  have hreach := @lt_foldl_furthest segs 0 (x - userLoadAddr - 1)
  constructor
  · intro hle
    obtain hzero | ⟨seg, hseg, hstop⟩ := hreach.mp (by omega)
    · exact absurd hzero (Nat.not_lt_zero _)
    · exact ⟨by omega, seg, hseg, by omega⟩
  · rintro ⟨hle, seg, hseg, hstop⟩
    have := hreach.mpr (.inr ⟨seg, hseg, by omega⟩)
    omega

/-- Zeros that end in the 4 MiB end no later than their segment does. -/
theorem bss_le_stop {seg : Segment} (hlt : seg.vaddr < 4294967296) (hlo : userLoadAddr ≤ seg.vaddr + seg.filesz)
    (hgt : seg.memsz > seg.filesz) (hhi : seg.vaddr + seg.memsz ≤ userLoadAddr + 0x400000) :
    seg.vaddr + seg.memsz ≤ userLoadAddr + seg.stop := by
  unfold Segment.stop u32 sub32
  unfold userLoadAddr at hlo hhi ⊢
  omega

/-- A loader that stays in the window leaves a program with the memory it had
outside of it. -/
theorem mem_outside_window (hl : StartsLoading s path argvU envpU s₁ node stack script envv)
    (hc : PassesChecks s₁ node s₀ h clearEnd) (hw : LoadsWithin s₀.vfs node h clearEnd)
    (he : sysExecveImpl s path argvU envpU = .ret (s', 0)) {a : Nat} (ha : ¬InWindow clearEnd a) :
    s'.mem a = s.mem a := by
  obtain ⟨mem, hmem, hload, _⟩ := loading_of_success hl hc he
  obtain ⟨mem', ok, hload', hout⟩ := hw mem
  rw [hload] at hload'
  cases hload'
  have hle : clearEnd ≤ 0x400000 := by
    obtain ⟨_, last, _, _, _, rfl, _⟩ := hc
    exact Nat.min_le_right _ _
  have hzeros : Within (InWindow clearEnd) (fun m => storeMem m userLoadAddr (List.replicate clearEnd 0)) := by
    refine (within_storeMem hle).mpr (.inr ⟨Nat.le_refl _, ?_⟩)
    rw [List.length_replicate]
  obtain ⟨m, hm, hkept⟩ := hzeros s.mem
  dsimp only at hm
  rw [← zeroMem_eq, hmem] at hm
  cases hm
  rw [hout a ha, hkept a ha]

/-! ## Two programs -/

/-- The program whose segment begins eight bytes below the window. -/
def lowImage : List UInt8 :=
  (imageOf [127, 69, 76, 70]).take 60 ++ [248, 255, 255, 7] ++ (imageOf [127, 69, 76, 70]).drop 64

/-- A machine with that program at `/a`, and other memory full of ones. -/
def lowMachine : State :=
  let s := machineOf (withFile lowImage) (str "/a")
  { s with mem := fun a => if a < userLoadAddr then 1 else s.mem a }

/-- The state that a call returns in. -/
def endState {α : Type} : Exec (α × Int) → Option α
  | .ret (a, _) => some a
  | _ => none

end Window

end LiteBSD.Execve
