/-
# `LiteBSD.Vfs.Writes` — a write inside a file or at its end

A write to a regular file comes to one of two ends: the file has the bytes and
the length is returned, or an allocation has stopped the machine.  Nothing else
can happen to a write that starts in the file or at its end and ends below
2 GiB: the doubling finds a capacity, so that it does not run for ever, and
every byte that is stored or copied lies in a block that is there (`FsInv`).
-/
import LiteBSD.Vfs.Contents
import LiteBSD.Vfs.Growth

namespace LiteBSD

namespace Exec

variable {α β : Type}

/-- `x` returns with `Q`, or `err()` has stopped the machine. -/
def Halts (x : Exec α) (Q : α → Prop) : Prop := (∃ msg, x = panic msg) ∨ Returns x Q

theorem Halts.ret {a : α} {Q : α → Prop} (h : Q a) : Halts (ret a) Q := .inr (.ret h)

theorem Halts.mono {x : Exec α} {P Q : α → Prop} (h : Halts x P) (hPQ : ∀ a, P a → Q a) : Halts x Q :=
  h.imp_right fun hr => hr.mono hPQ

/-- What is returned is what the call comes to. -/
theorem Halts.ran {x : Exec α} {Q : α → Prop} (h : Halts x Q) : Halts x fun a => x = Exec.ret a ∧ Q a := by
  rcases h with ⟨msg, hp⟩ | ⟨a, ha, hq⟩
  · exact .inl ⟨msg, hp⟩
  · exact .inr ⟨a, ha, ha, hq⟩

theorem Halts.bind {x : Exec α} {f : α → Exec β} {P : α → Prop} {Q : β → Prop} (h : Halts x P)
    (hf : ∀ a, P a → Halts (f a) Q) : Halts (x >>= f) Q := by
  rcases h with ⟨msg, rfl⟩ | ⟨a, rfl, ha⟩
  · exact .inl ⟨msg, rfl⟩
  · exact hf a ha

/-- What neither runs for ever nor leaves its memory. -/
theorem Halts.of_ensures {x : Exec α} {Q : α → Prop} (hends : x ≠ hang) (hsound : x ≠ undefined) (h : Ensures x Q) :
    Halts x Q := by
  cases x with
  | ret a => exact .ret (h a rfl)
  | panic msg => exact .inl ⟨msg, rfl⟩
  | hang => exact absurd rfl hends
  | undefined => exact absurd rfl hsound

theorem bind_sound {x : Exec α} {f : α → Exec β} (hx : x ≠ undefined) (hf : ∀ a, x = ret a → f a ≠ undefined) :
    (x >>= f) ≠ undefined := by
  cases x with
  | ret a => exact hf a rfl
  | panic msg => exact nofun
  | hang => exact nofun
  | undefined => exact absurd rfl hx

end Exec

/-! ## A list of bytes, piece by piece -/

/-- What reads of these counts return one after the other. -/
def refReads (file : List UInt8) : List Nat → List (List UInt8)
  | [] => []
  | count :: counts => file.take count :: refReads (file.drop count) counts

section Pieces

variable {file : List UInt8} {offset : Nat}

theorem refWrite_of_le (h : offset ≤ file.length) (buffer : List UInt8) :
    refWrite file offset buffer = file.take offset ++ buffer ++ file.drop (offset + buffer.length) := by
  rw [refWrite, Nat.sub_eq_zero_of_le h, List.replicate_zero, List.append_nil]

theorem length_refWrite (h : offset ≤ file.length) (buffer : List UInt8) :
    (refWrite file offset buffer).length = max file.length (offset + buffer.length) := by
  rw [refWrite_of_le h, List.length_append, List.length_append, List.length_take, List.length_drop]
  omega

theorem refWrite_end (file buffer : List UInt8) : refWrite file file.length buffer = file ++ buffer := by
  rw [refWrite_of_le (Nat.le_refl _), List.take_length, List.drop_eq_nil_of_le (Nat.le_add_right _ _), List.append_nil]

/-- Two writes, the second from where the first ended. -/
theorem refWrite_append (h : offset ≤ file.length) (b c : List UInt8) :
    refWrite (refWrite file offset b) (offset + b.length) c = refWrite file offset (b ++ c) := by
  have hlen := length_refWrite h b
  have hfront : (file.take offset ++ b).length = offset + b.length := by
    rw [List.length_append, List.length_take, Nat.min_eq_left h]
  have hwritten := refWrite_of_le h b
  rw [refWrite_of_le (by omega), hwritten, List.take_left' hfront, List.drop_append, hfront,
    List.drop_eq_nil_of_le (by omega), List.nil_append, List.drop_drop, refWrite_of_le h, List.length_append,
    List.append_assoc (file.take offset) b c]
  congr 2
  omega

theorem length_refReads (file : List UInt8) (counts : List Nat) : (refReads file counts).length = counts.length := by
  induction counts generalizing file with
  | nil => rfl
  | cons count counts ih => rw [refReads, List.length_cons, List.length_cons, ih]

theorem refReads_prefix (file : List UInt8) (counts : List Nat) : (refReads file counts).flatten <+: file := by
  induction counts generalizing file with
  | nil => exact List.nil_prefix
  | cons count counts ih =>
      obtain ⟨rest, hrest⟩ := ih (file.drop count)
      refine ⟨rest, ?_⟩
      rw [refReads, List.flatten_cons, List.append_assoc, hrest, List.take_append_drop]

/-- The empty piece is the one that is read when nothing is left. -/
theorem refReads_nil_iff {counts : List Nat} (hpos : ∀ count ∈ counts, 0 < count) {i : Nat} {piece : List UInt8}
    (hi : (refReads file counts)[i]? = some piece) :
    piece = [] ↔ ((refReads file counts).take i).flatten = file := by
  induction counts generalizing file i with
  | nil => cases hi
  | cons count counts ih =>
      have hcount := hpos count List.mem_cons_self
      cases i with
      | zero =>
          cases hi
          cases file with
          | nil => simp
          | cons c rest =>
              obtain ⟨m, rfl⟩ := Nat.exists_eq_add_of_lt hcount
              simp
      | succ i =>
          rw [refReads, List.getElem?_cons_succ] at hi
          rw [ih (fun c hc => hpos c (List.mem_cons_of_mem _ hc)) hi, refReads, List.take_succ_cons, List.flatten_cons]
          constructor
          · intro hrest
            rw [hrest, List.take_append_drop]
          · intro hall
            exact List.append_cancel_left (hall.trans (List.take_append_drop count file).symm)

end Pieces

/-! ## Allocation and storing -/

/-- Who owns the data, the list of nodes, and the capacities are in order. -/
structure FsInv (v : Vfs) : Prop where
  blobs : BlobInv v
  table : NodeTable v
  roomy : AllRoomy v

section Sound

variable {v w : Vfs} {a : Nat} {n : Node}

theorem Vfs.kmalloc_sound (v : Vfs) (size : Nat) : v.kmalloc size ≠ .undefined := by
  unfold Vfs.kmalloc
  repeat' split
  all_goals exact nofun

theorem Vfs.kmallocBuf_sound (v : Vfs) (size : Nat) : v.kmallocBuf size ≠ .undefined := by
  refine Exec.bind_sound (v.kmalloc_sound size) fun r _ => ?_
  dsimp only
  split
  · exact nofun
  · exact nofun

/-- The data of a node fits a block that is just allocated. -/
theorem copyBytes_sound (h : BlobInv v) (hn : v.node a = some n) {x : Vfs} (hbuf : x.buf = v.buf)
    (hsup : x.nextObj = v.nextObj) {size b : Nat} (hsize : n.size ≤ size)
    (hw : x.kmallocBuf size = .ret (w, some b)) : w.copyBytes b n.data n.size ≠ .undefined := by
  rcases Vfs.kmallocBuf_ret hw with ⟨hb, _⟩ | ⟨hb, rfl⟩
  · cases hb
  cases hb
  unfold Vfs.copyBytes
  split
  · exact Exec.ret_ne_undefined
  rename_i hpos
  cases hd : n.data with
  | none =>
      have hroom := h.room a n hn
      rw [h.bare a n hn hd] at hroom
      exact absurd (Nat.le_zero.mp hroom) hpos
  | some d =>
      obtain ⟨m, hm, hlen⟩ := h.held a n d hn hd
      have hne : d ≠ x.nextObj := hsup ▸ Nat.ne_of_lt (h.data_lt hn hd)
      have hsrc : Vfs.loadBuf { x with
          nextObj := x.nextObj + 1
          buf := Function.update x.buf x.nextObj (some ⟨size, x.mem.junk x.nextObj⟩) } d = .ret m := by
        rw [Vfs.loadBuf]
        dsimp only
        rw [Function.update_of_ne hne, hbuf, hm]
      have hdst : Vfs.loadBuf { x with
          nextObj := x.nextObj + 1
          buf := Function.update x.buf x.nextObj (some ⟨size, x.mem.junk x.nextObj⟩) } x.nextObj =
            .ret ⟨size, x.mem.junk x.nextObj⟩ := by
        rw [Vfs.loadBuf]
        dsimp only
        rw [Function.update_self]
      dsimp only
      rw [hsrc, Exec.ret_bind, hdst, Exec.ret_bind, if_pos ⟨hlen ▸ h.room a n hn, hsize⟩]
      exact Exec.ret_ne_undefined

theorem dataCow_sound (h : BlobInv v) (hn : v.node a = some n) : dataCow v a ≠ .undefined := by
  rw [dataCow, Vfs.load_live hn, Exec.ret_bind]
  cases hc : n.dataRefs with
  | none => exact Exec.ret_ne_undefined
  | some c =>
      have hcell := (h.counted.of_held (h.listed hn hc) ((counterOf_eq hn).trans hc)).1
      dsimp only
      rw [Vfs.loadCell, hcell, Exec.ret_bind]
      split
      · exact Exec.ret_ne_undefined
      refine Exec.bind_sound ?_ fun q _ => ?_
      · unfold cowCopy
        split
        · refine Exec.bind_sound (Vfs.kmallocBuf_sound _ _) fun q hx => ?_
          obtain ⟨x, p⟩ := q
          cases p with
          | none => exact Exec.ret_ne_undefined
          | some b =>
              exact Exec.bind_sound (copyBytes_sound (x := v.setCell c _) h hn rfl rfl (h.room a n hn) hx)
                fun _ _ => Exec.ret_ne_undefined
        · exact Exec.ret_ne_undefined
      · obtain ⟨x, copied⟩ := q
        cases copied with
        | none => exact Exec.ret_ne_undefined
        | some data =>
            refine Exec.bind_sound (Vfs.kmalloc_sound _ _) fun q _ => ?_
            obtain ⟨y, p⟩ := q
            cases p with
            | none => exact Exec.ret_ne_undefined
            | some c' => exact Exec.ret_ne_undefined

theorem growData_sound (h : BlobInv v) (hn : v.node a = some n) (required : Nat) :
    growData v a required ≠ .undefined := by
  rw [growData, Vfs.load_live hn, Exec.ret_bind]
  split
  · rename_i hgt
    split
    · exact Exec.hang_ne_undefined
    · rename_i capacity hloop
      refine Exec.bind_sound (Vfs.kmallocBuf_sound _ _) fun q hx => ?_
      obtain ⟨x, p⟩ := q
      cases p with
      | none => exact Exec.ret_ne_undefined
      | some b =>
          have hsize : n.size ≤ capacity :=
            Nat.le_trans (h.room a n hn) (Nat.le_trans (Nat.le_of_lt hgt) (le_of_growLoop hloop))
          exact Exec.bind_sound (copyBytes_sound h hn rfl rfl hsize hx) fun _ _ => Exec.ret_ne_undefined
  · exact Exec.ret_ne_undefined

/-- What fits the capacity is stored. -/
theorem storeBytes_sound (h : BlobInv v) (hn : v.node a = some n) {offset : Nat} {buffer : List UInt8}
    (hfits : offset + buffer.length ≤ n.capacity) : v.storeBytes n.data offset buffer ≠ .undefined := by
  unfold Vfs.storeBytes
  split
  · exact Exec.ret_ne_undefined
  rename_i hne
  have hpos := List.length_pos_iff.mpr hne
  cases hd : n.data with
  | none =>
      have hzero := h.bare a n hn hd
      omega
  | some d =>
      obtain ⟨m, hm, hlen⟩ := h.held a n d hn hd
      dsimp only
      rw [Vfs.loadBuf, hm, Exec.ret_bind, if_pos (hlen ▸ hfits)]
      exact Exec.ret_ne_undefined

theorem writeData_sound (h : BlobInv v) (hnd : v.nodes.Nodup) (hn : v.node a = some n) {offset : Nat}
    {buffer : List UInt8} (hword : offset + buffer.length < 4294967296) :
    writeData v a offset buffer ≠ .undefined := by
  refine Exec.bind_sound (dataCow_sound h hn) fun ⟨v₁, r₁⟩ h₁ => ?_
  obtain ⟨rfl, n₁, hw₁, _⟩ := dataCow_spec h hnd hn h₁
  dsimp only
  rw [if_neg (by decide)]
  refine Exec.bind_sound (dataCow_sound hw₁.inv hw₁.node) fun ⟨v₂, r₂⟩ h₂ => ?_
  obtain ⟨rfl, n₂, hw₂, _⟩ := dataCow_spec hw₁.inv (hw₁.nodes ▸ hnd) hw₁.node h₂
  dsimp only
  rw [if_neg (by decide), u32_of_lt hword, if_neg (Nat.not_lt.mpr (Nat.le_add_right _ _))]
  refine Exec.bind_sound (growData_sound hw₂.inv hw₂.node _) fun ⟨v₃, r₃⟩ h₃ => ?_
  obtain ⟨rfl, n₃, hw₃, _, hcap⟩ := growData_spec hw₂.inv hw₂.node hw₂.sole h₃
  dsimp only
  rw [if_neg (by decide), Vfs.load_live hw₃.node, Exec.ret_bind]
  exact Exec.bind_sound (storeBytes_sound hw₃.inv hw₃.node hcap) fun _ _ => nofun

theorem dataCow_ends (v : Vfs) (a : Nat) : dataCow v a ≠ .hang := by
  refine Exec.bind_ends (v.load_ends a) fun n _ => ?_
  split
  · exact nofun
  refine Exec.bind_ends ?_ fun refs _ => ?_
  · unfold Vfs.loadCell
    split
    · exact nofun
    · exact nofun
  split
  · exact nofun
  refine Exec.bind_ends ?_ fun ⟨x, copied⟩ _ => ?_
  · unfold cowCopy
    split
    · refine Exec.bind_ends (Vfs.kmallocBuf_ends _ _) fun ⟨x, p⟩ _ => ?_
      cases p with
      | none => exact nofun
      | some b => exact Exec.bind_ends (x.copyBytes_ends b _ _) fun _ _ => nofun
    · exact nofun
  · cases copied with
    | none => exact nofun
    | some data =>
        refine Exec.bind_ends (x.kmalloc_ends 4) fun ⟨y, p⟩ _ => ?_
        cases p with
        | none => exact nofun
        | some c' => exact nofun

/-- A write whose end is below 2 GiB does not run for ever. -/
theorem writeData_ends (h : FsInv v) (hn : v.node a = some n) (hg : Growable n) {offset : Nat} {buffer : List UInt8}
    (hword : offset + buffer.length < 2147483648) : writeData v a offset buffer ≠ .hang := by
  cases hcow : dataCow v a with
  | ret p =>
      obtain ⟨w, r⟩ := p
      obtain ⟨rfl, -⟩ := dataCow_spec h.blobs h.table.nodup hn hcow
      rw [ne_eq, writeData_hang_iff h.roomy hn hg ⟨w, hcow⟩ (by omega)]
      omega
  | panic msg =>
      rw [writeData, hcow]
      intro h
      cases h
  | hang => exact absurd hcow (dataCow_ends v a)
  | undefined =>
      rw [writeData, hcow]
      intro h
      cases h

/-- A write that starts in a regular file or at its end. -/
theorem vfsWrite_halts (h : FsInv v) (hn : v.node a = some n) (hreg : Regular n) (hg : Growable n) {offset : Nat}
    {buffer : List UInt8} (hoff : offset ≤ n.size) (hword : offset + buffer.length < 2147483648) :
    (vfsWrite v a offset buffer).Halts fun p => p.2 = buffer.length ∧ FsInv p.1 ∧
      ∃ n', p.1.node a = some n' ∧ n'.toLabel = n.toLabel ∧ p.1.bytes n' = refWrite (v.bytes n) offset buffer := by
  have hdev : ¬devicePath n.path := not_or.mpr ⟨hreg.2.1, not_or.mpr hreg.2.2⟩
  have heq : vfsWrite v a offset buffer = writeData v a offset buffer := vfsWrite_eq_writeData hn hg hdev
  rw [heq]
  refine .of_ensures (writeData_ends h hn hg hword) (writeData_sound h.blobs h.table.nodup hn (by omega)) ?_
  rintro ⟨w, ret⟩ hw
  have hwrap : u32 (offset + buffer.length) = offset + buffer.length := u32_of_lt (by omega)
  rw [← heq] at hw
  have htable : NodeTable w := h.table.of_sameNames (.of_vfsWrite hw)
  have hroomy : AllRoomy w := h.roomy.of_vfsWrite hw
  rw [heq] at hw
  obtain ⟨n', hwork, ⟨hlt, _⟩ | ⟨_, rfl, hwritten⟩⟩ := writeData_spec h.blobs h.table.nodup hn hw
  · rw [hwrap] at hlt
    omega
  · refine ⟨?_, ⟨hwork.inv, htable, hroomy⟩, n', hwork.node, hwritten.label, bytes_of_written hoff hwrap hwritten⟩
    exact if_pos (by omega)

end Sound

end LiteBSD
