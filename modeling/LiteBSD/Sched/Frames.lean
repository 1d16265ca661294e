/-
# `LiteBSD.Sched.Frames` — the stacks of a forked task

`fork_task` gives the child a copy of the kernel stack and a copy of the user
stack, in two blocks of its own.  The copy of the user stack is full of
addresses of the old one.  Those the child is going to use are shifted: its
stack pointer, its frame pointer, and along the list of saved frame pointers
each that points into the old stack.

Memory is byte by byte, and addresses are 32-bit: what is added to them wraps
around.  The walk along the frame pointers takes a number of rounds as fuel,
which is not used up if there are more than the stack has bytes.
-/
import LiteBSD.Execve.Stack
import LiteBSD.Heap.Payload

namespace LiteBSD.Frames

open Lib
open Execve (bytes32 le32_bytes32)

abbrev Bytes := Nat → UInt8

/-- `*(uint32_t*)a` -/
def wordAt (mem : Bytes) (a : Nat) : Nat := Execve.le32 ((List.range 4).map fun j => mem (u32 (a + j)))

/-- `*(uint32_t*)a = w` -/
def storeWord (mem : Bytes) (a w : Nat) : Bytes := fun x => ((bytes32 w)[sub32 x a]?).getD (mem x)

/-- The loop that copies `n` bytes. -/
def copyBytes (mem : Bytes) (dst src n : Nat) : Bytes :=
  (List.range n).foldl (fun mem i => Function.update mem (u32 (dst + i)) (mem (u32 (src + i)))) mem

/-! ## Offsets in a `struct interrupt_frame` -/

def ebpAt : Nat := 24
def eaxAt : Nat := 44
def userespAt : Nat := 68

/-- `sizeof(struct interrupt_frame)` -/
def frameSize : Nat := 76

/-- The stacks of a `task_t`. -/
structure Stacks where
  stackBase : Nat
  userStackBase : Nat
  userStackTop : Nat

/-- What is new of the child: its frame and its stacks. -/
structure Child extends Stacks where
  frame : Nat

/-! ## `fork_task` -/

/-- `stack_size` -/
def stackSize (t : Stacks) : Nat :=
  let size := sub32 t.userStackTop t.userStackBase
  if size = 0 ∨ size > 65536 then 16384 else size

/-- Does the value point into the stack, its end included? -/
def intoStack (t : Stacks) (val : Nat) : Prop := t.userStackBase ≤ val ∧ val ≤ t.userStackTop

instance (t : Stacks) (val : Nat) : Decidable (intoStack t val) := inferInstanceAs (Decidable (_ ∧ _))

/-- A register of the frame at `src` that points into the stack is shifted in
the frame at `dst`. -/
def shiftWord (t : Stacks) (delta : Nat) (mem : Bytes) (src dst : Nat) : Bytes :=
  if intoStack t (wordAt mem src) then storeWord mem dst (u32 (wordAt mem src + delta)) else mem

/-- The walk along the saved frame pointers, from `cur` on: `none` if it has
not come to an end in so many rounds. -/
def walkEbp (t : Stacks) (ustack size delta : Nat) : Nat → Bytes → Nat → Option Bytes
  | 0, _, _ => none
  | fuel + 1, mem, cur =>
      if cur ≥ ustack ∧ u32 (cur + 4) ≤ u32 (ustack + size) then
        let val := wordAt mem cur
        if intoStack t val then
          walkEbp t ustack size delta fuel (storeWord mem cur (u32 (val + delta))) (u32 (val + delta))
        else some mem
      else some mem

/-- The copy of the kernel stack, in which the call of the child returns 0. -/
def copyKernelStack (mem : Bytes) (t : Stacks) (stack childFrame : Nat) : Bytes :=
  storeWord (copyBytes mem stack t.stackBase 4096) (u32 (childFrame + eaxAt)) 0

/-- The copy of the user stack, and the two registers of the child. -/
def copyUserStack (mem : Bytes) (t : Stacks) (frame childFrame ustack size : Nat) : Bytes :=
  let mem := copyBytes mem ustack t.userStackBase size
  let delta := sub32 ustack t.userStackBase
  let mem := shiftWord t delta mem (u32 (frame + userespAt)) (u32 (childFrame + userespAt))
  shiftWord t delta mem (u32 (frame + ebpAt)) (u32 (childFrame + ebpAt))

/-- What `fork_task` does to memory, with the three blocks that `kmalloc`
returns, `0` for `NULL`; a walk without an end hangs. -/
def forkTask (fuel : Nat) (mem : Bytes) (t : Stacks) (frame stack task ustack : Nat) : Exec (Bytes × Option Child) :=
  if stack = 0 then .ret (mem, none)
  else
    let offset := sub32 frame t.stackBase
    if offset ≥ 4096 then .ret (mem, none)
    else
      let childFrame := u32 (stack + offset)
      let mem := copyKernelStack mem t stack childFrame
      if task = 0 then .ret (mem, none)
      else if t.userStackBase = 0 then .ret (mem, some ⟨{ t with stackBase := stack }, childFrame⟩)
      else if ustack = 0 then .ret (mem, none)
      else
        let size := stackSize t
        let mem := copyUserStack mem t frame childFrame ustack size
        let delta := sub32 ustack t.userStackBase
        match walkEbp t ustack size delta fuel mem (wordAt mem (u32 (childFrame + ebpAt))) with
        | none => .hang
        | some mem => .ret (mem, some ⟨⟨stack, ustack, u32 (t.userStackTop + delta)⟩, childFrame⟩)

/-! ## Words -/

section Words

variable {m m' : Bytes} {a b w x : Nat}

theorem wordAt_of_bytes (h : ∀ j < 4, m (u32 (a + j)) = m' (u32 (b + j))) : wordAt m a = wordAt m' b :=
  congrArg Execve.le32 (List.map_congr_left fun j hj => h j (List.mem_range.mp hj))

theorem wordAt_eq (ha : a + 4 ≤ 4294967296) : wordAt m a = Execve.le32 [m a, m (a + 1), m (a + 2), m (a + 3)] := by
  show Execve.le32 [m (u32 (a + 0)), m (u32 (a + 1)), m (u32 (a + 2)), m (u32 (a + 3))] = _
  rw [u32_of_lt (by omega), u32_of_lt (by omega), u32_of_lt (by omega), u32_of_lt (by omega), Nat.add_zero]

theorem le32_lt (b₀ b₁ b₂ b₃ : UInt8) : Execve.le32 [b₀, b₁, b₂, b₃] < 4294967296 := by
  have h₀ := b₀.toNat_lt
  have h₁ := b₁.toNat_lt
  have h₂ := b₂.toNat_lt
  have h₃ := b₃.toNat_lt
  show b₀.toNat + 256 * (b₁.toNat + 256 * (b₂.toNat + 256 * b₃.toNat)) < 4294967296
  omega

theorem wordAt_lt (m : Bytes) (a : Nat) : wordAt m a < 4294967296 := le32_lt _ _ _ _

/-- A word knows its bytes. -/
theorem le32_inj {b₀ b₁ b₂ b₃ c₀ c₁ c₂ c₃ : UInt8} (h : Execve.le32 [b₀, b₁, b₂, b₃] = Execve.le32 [c₀, c₁, c₂, c₃]) :
    b₀ = c₀ ∧ b₁ = c₁ ∧ b₂ = c₂ ∧ b₃ = c₃ := by
  have hb₀ := b₀.toNat_lt
  have hb₁ := b₁.toNat_lt
  have hb₂ := b₂.toNat_lt
  have hc₀ := c₀.toNat_lt
  have hc₁ := c₁.toNat_lt
  have hc₂ := c₂.toNat_lt
  change b₀.toNat + 256 * (b₁.toNat + 256 * (b₂.toNat + 256 * b₃.toNat)) =
    c₀.toNat + 256 * (c₁.toNat + 256 * (c₂.toNat + 256 * c₃.toNat)) at h
  simp only [← UInt8.toNat_inj]
  omega

/-- Words that are equal have equal bytes. -/
theorem bytes_of_wordAt (ha : a + 4 ≤ 4294967296) (hb : b + 4 ≤ 4294967296) (h : wordAt m a = wordAt m' b) {j : Nat}
    (hj : j < 4) : m (a + j) = m' (b + j) := by
  rw [wordAt_eq ha, wordAt_eq hb] at h
  obtain ⟨h₀, h₁, h₂, h₃⟩ := le32_inj h
  match j, hj with
  | 0, _ => exact h₀
  | 1, _ => exact h₁
  | 2, _ => exact h₂
  | 3, _ => exact h₃

theorem wordAt_congr (ha : a + 4 ≤ 4294967296) (hb : b + 4 ≤ 4294967296) (h : ∀ j < 4, m (a + j) = m' (b + j)) :
    wordAt m a = wordAt m' b := by
  refine wordAt_of_bytes fun j hj => ?_
  rw [u32_of_lt (by omega), u32_of_lt (by omega)]
  exact h j hj

theorem storeWord_far (h : 4 ≤ sub32 x a) : storeWord m a w x = m x := by
  rw [storeWord, List.getElem?_eq_none h]
  rfl

/-- A store leaves the bytes before and behind the word. -/
theorem storeWord_apart (hx : x < 4294967296) (ha : a + 4 ≤ 4294967296) (h : x < a ∨ a + 4 ≤ x) :
    storeWord m a w x = m x := storeWord_far (by unfold sub32; omega)

theorem wordAt_storeWord_self (ha : a + 4 ≤ 4294967296) (hw : w < 4294967296) : wordAt (storeWord m a w) a = w := by
  have hbyte (j : Nat) (hj : j < 4) : sub32 (a + j) a = j := by
    unfold sub32
    omega
  have h₀ := hbyte 0 (by decide)
  rw [Nat.add_zero] at h₀
  rw [wordAt_eq ha]
  unfold storeWord
  rw [h₀, hbyte 1 (by decide), hbyte 2 (by decide), hbyte 3 (by decide)]
  exact le32_bytes32 hw

theorem wordAt_storeWord_apart (ha : a + 4 ≤ 4294967296) (hb : b + 4 ≤ 4294967296) (h : b + 4 ≤ a ∨ a + 4 ≤ b) :
    wordAt (storeWord m a w) b = wordAt m b :=
  wordAt_congr hb hb fun j hj => storeWord_apart (by omega) ha (by omega)

/-- The copy of a block that is apart. -/
theorem copyBytes_apply {dst src n : Nat} (hdst : dst + n ≤ 4294967296) (hsrc : src + n ≤ 4294967296)
    (hapart : dst + n ≤ src ∨ src + n ≤ dst) (x : Nat) :
    copyBytes m dst src n x = if dst ≤ x ∧ x < dst + n then m (src + (x - dst)) else m x := by
  induction n generalizing x with
  | zero =>
      rw [if_neg (by omega)]
      rfl
  | succ n ih =>
      rw [copyBytes, List.range_succ, List.foldl_append, List.foldl_cons, List.foldl_nil]
      change Function.update (copyBytes m dst src n) _ (copyBytes m dst src n _) x = _
      have hprev := ih (by omega) (by omega) (by omega)
      rw [u32_of_lt (by omega), u32_of_lt (by omega)]
      by_cases hx : x = dst + n
      · rw [hx, Function.update_self, hprev, if_neg (by omega), if_pos (by omega), Nat.add_sub_cancel_left]
      · rw [Function.update_of_ne hx, hprev]
        by_cases hin : dst ≤ x ∧ x < dst + n
        · rw [if_pos hin, if_pos (by omega)]
        · rw [if_neg hin, if_neg (by omega)]

end Words

/-! ## Where the blocks are -/

/-- Where the address `a` of the stack is in the copy at `ustack`. -/
def inCopy (t : Stacks) (ustack a : Nat) : Nat := ustack + (a - t.userStackBase)

/-- A value after the shift. -/
def shifted (t : Stacks) (ustack val : Nat) : Nat :=
  if intoStack t val then u32 (val + sub32 ustack t.userStackBase) else val

/-- Where the stack and its copy are: apart, and not at the end of memory. -/
structure Placed (t : Stacks) (ustack : Nat) : Prop where
  nonempty : t.userStackBase < t.userStackTop
  bounded : t.userStackTop ≤ t.userStackBase + 65536
  low : 4 ≤ t.userStackBase ∧ 4 ≤ ustack
  high : t.userStackTop + 4 < 4294967296 ∧ ustack + (t.userStackTop - t.userStackBase) + 4 < 4294967296
  apart : t.userStackTop < ustack ∨ ustack + (t.userStackTop - t.userStackBase) ≤ t.userStackBase

/-- A block that `kmalloc` may return. -/
def InHeap (r : Region) : Prop := heapStart + headerSize ≤ r.start ∧ r.stop ≤ heapEnd

/-- Of two blocks, the one behind the other has its header between them. -/
def Apart (r q : Region) : Prop := r.stop + headerSize ≤ q.start ∨ q.stop + headerSize ≤ r.start

/-- The two stacks of the parent, and those of the child. -/
def stackBlocks (t : Stacks) (stack ustack : Nat) : List Region :=
  [⟨t.stackBase, 4096⟩, ⟨t.userStackBase, t.userStackTop - t.userStackBase⟩, ⟨stack, 4096⟩,
    ⟨ustack, t.userStackTop - t.userStackBase⟩]

/-- The frame is on the kernel stack, the user stack has up to 64 KiB, and
the blocks are the heap's. -/
structure ForkBlocks (t : Stacks) (frame stack ustack : Nat) : Prop where
  frame : t.stackBase ≤ frame ∧ frame + frameSize ≤ t.stackBase + 4096
  size : t.userStackBase < t.userStackTop ∧ t.userStackTop ≤ t.userStackBase + 65536
  inHeap : ∀ r ∈ stackBlocks t stack ustack, InHeap r
  apart : (stackBlocks t stack ustack).Pairwise Apart

/-- Blocks that are held at one time are in the heap, and apart. -/
theorem held_blocks {s : HeapState} (hs : heapSystem.Reach s) {rs : List Region}
    (hheld : ∀ r ∈ rs, r.start ∈ s.live ∧ r.len ≤ s.heap.size (r.start - headerSize))
    (hnodup : (rs.map Region.start).Nodup) : (∀ r ∈ rs, InHeap r) ∧ rs.Pairwise Apart := by
  obtain ⟨bs, hown⟩ := heap_owned hs
  have hfits := hown.fits
  rw [hown.begin_eq] at hfits
  -- each is one of the blocks that cover the heap
  have hblock (r : Region) (hr : r ∈ rs) : ∃ b : Seg, (r.start - headerSize, b) ∈ layout headerSize heapStart bs ∧
      r.start - headerSize + headerSize = r.start ∧ r.len ≤ b.size := by
    obtain ⟨hlive, hlen⟩ := hheld r hr
    obtain ⟨b, -, hb, hsize, hback⟩ := hown.block hlive
    exact ⟨b, hb, hback, hsize ▸ hlen⟩
  refine ⟨fun r hr => ?_, ?_⟩
  · obtain ⟨b, hb, hback, hlen⟩ := hblock r hr
    have hbounds := layout_bounds hb
    dsimp only at hbounds
    unfold InHeap Region.stop
    omega
  · refine (List.pairwise_map.mp hnodup).imp_of_mem fun {r q} hr hq hne => ?_
    obtain ⟨b, hb, hback, hlen⟩ := hblock r hr
    obtain ⟨c, hc, hback', hlen'⟩ := hblock q hq
    unfold Apart Region.stop
    rcases layout_disjoint hb hc with he | hle | hle
    · have hstart : r.start - headerSize = q.start - headerSize := congrArg Prod.fst he
      exact absurd (by rw [← hback, ← hback', hstart]) hne
    · dsimp only at hle
      omega
    · dsimp only at hle
      omega

theorem ForkBlocks.of_held {t : Stacks} {frame stack ustack : Nat} {s : HeapState} (hs : heapSystem.Reach s)
    (hframe : t.stackBase ≤ frame ∧ frame + frameSize ≤ t.stackBase + 4096)
    (hsize : t.userStackBase < t.userStackTop ∧ t.userStackTop ≤ t.userStackBase + 65536)
    (hheld : ∀ r ∈ stackBlocks t stack ustack, r.start ∈ s.live ∧ r.len ≤ s.heap.size (r.start - headerSize))
    (hnodup : ((stackBlocks t stack ustack).map Region.start).Nodup) : ForkBlocks t frame stack ustack :=
  ⟨hframe, hsize, (held_blocks hs hheld hnodup).1, (held_blocks hs hheld hnodup).2⟩

/-! ## The two copies -/

section Copies

variable {t : Stacks} {frame stack ustack val : Nat} {m : Bytes}

/-- An address of the stack, its end included, is shifted to the copy. -/
theorem Placed.shift (hp : Placed t ustack) (hval : intoStack t val) :
    u32 (val + sub32 ustack t.userStackBase) = inCopy t ustack val := by
  obtain ⟨hlow, hhigh⟩ := hval
  have h₁ := hp.low
  have h₂ := hp.high
  unfold u32 sub32 inCopy
  omega

theorem wordAt_shiftWord {delta src dst : Nat} (hdst : dst + 4 ≤ 4294967296) (hsame : wordAt m dst = wordAt m src) :
    wordAt (shiftWord t delta m src dst) dst =
      if intoStack t (wordAt m src) then u32 (wordAt m src + delta) else wordAt m src := by
  unfold shiftWord
  split
  · exact wordAt_storeWord_self hdst (Nat.mod_lt _ (by decide))
  · exact hsame

theorem shiftWord_apart {delta src dst x : Nat} (hdst : dst + 4 ≤ 4294967296) (hx : x < 4294967296)
    (h : x < dst ∨ dst + 4 ≤ x) : shiftWord t delta m src dst x = m x := by
  unfold shiftWord
  split
  · exact storeWord_apart hx hdst h
  · rfl

theorem wordAt_shiftWord_apart {delta src dst b : Nat} (hdst : dst + 4 ≤ 4294967296) (hb : b + 4 ≤ 4294967296)
    (h : b + 4 ≤ dst ∨ dst + 4 ≤ b) : wordAt (shiftWord t delta m src dst) b = wordAt m b :=
  wordAt_congr hb hb fun j hj => shiftWord_apart hdst (by omega) (by omega)

/-- The blocks as bounds of addresses. -/
structure ForkBounds (t : Stacks) (frame stack ustack : Nat) : Prop where
  frame : t.stackBase ≤ frame ∧ frame + 76 ≤ t.stackBase + 4096
  kernel : 4 ≤ t.stackBase ∧ t.stackBase + 4096 < 4294967292
  copy : 4 ≤ stack ∧ stack + 4096 < 4294967292
  apart : t.stackBase + 4096 ≤ stack ∨ stack + 4096 ≤ t.stackBase
  parent : t.userStackTop ≤ stack ∨ stack + 4096 ≤ t.userStackBase
  child : ustack + (t.userStackTop - t.userStackBase) ≤ stack ∨ stack + 4096 ≤ ustack
  kernelChild : ustack + (t.userStackTop - t.userStackBase) ≤ t.stackBase ∨ t.stackBase + 4096 ≤ ustack

theorem ForkBlocks.bounds (hb : ForkBlocks t frame stack ustack) :
    Placed t ustack ∧ ForkBounds t frame stack ustack := by
  obtain ⟨hframe, ⟨hne, hsize⟩, hin, hap⟩ := hb
  simp only [stackBlocks, List.mem_cons, List.not_mem_nil, or_false, forall_eq_or_imp, forall_eq, InHeap, Region.stop,
    List.pairwise_cons, Apart, heapStart, headerSize, heapEnd, heapSize, frameSize] at hin hap hframe
  exact ⟨⟨hne, hsize, by omega, by omega, by omega⟩,
    ⟨hframe, by omega, by omega, by omega, by omega, by omega, by omega⟩⟩

theorem ForkBounds.childFrame (hb : ForkBounds t frame stack ustack) :
    sub32 frame t.stackBase < 4096 ∧ u32 (stack + sub32 frame t.stackBase) = stack + (frame - t.stackBase) := by
  have h₁ := hb.frame
  have h₂ := hb.kernel
  have h₃ := hb.copy
  unfold u32 sub32
  omega

theorem copyKernelStack_eax (hb : ForkBounds t frame stack ustack) :
    wordAt (copyKernelStack m t stack (stack + (frame - t.stackBase))) (stack + (frame - t.stackBase) + eaxAt) = 0 := by
  obtain ⟨hframe₁, hframe₂⟩ := hb.frame
  have hcopy := hb.copy
  unfold copyKernelStack eaxAt
  rw [u32_of_lt (by omega)]
  exact wordAt_storeWord_self (by omega) (by decide)

/-- Any other word of the frame, in the copy. -/
theorem copyKernelStack_word (hb : ForkBounds t frame stack ustack) {o : Nat} (ho : o + 4 ≤ 76)
    (heax : o + 4 ≤ eaxAt ∨ eaxAt + 4 ≤ o) :
    wordAt (copyKernelStack m t stack (stack + (frame - t.stackBase))) (stack + (frame - t.stackBase) + o) =
      wordAt m (frame + o) := by
  obtain ⟨hframe₁, hframe₂⟩ := hb.frame
  have hkernel := hb.kernel
  have hcopy := hb.copy
  have hapart := hb.apart
  unfold eaxAt at heax
  unfold copyKernelStack eaxAt
  rw [u32_of_lt (by omega), wordAt_storeWord_apart (by omega) (by omega) (by omega)]
  refine wordAt_congr (by omega) (by omega) fun j hj => ?_
  rw [copyBytes_apply (by omega) (by omega) (by omega), if_pos (by omega)]
  congr 1
  omega

theorem copyKernelStack_outside (hb : ForkBounds t frame stack ustack) {x : Nat} (hx : x < 4294967296)
    (hout : x < stack ∨ stack + 4096 ≤ x) :
    copyKernelStack m t stack (stack + (frame - t.stackBase)) x = m x := by
  obtain ⟨hframe₁, hframe₂⟩ := hb.frame
  have hkernel := hb.kernel
  have hcopy := hb.copy
  have hapart := hb.apart
  unfold copyKernelStack eaxAt
  rw [u32_of_lt (by omega), storeWord_apart hx (by omega) (by omega),
    copyBytes_apply (by omega) (by omega) (by omega), if_neg (by omega)]

/-- The memory in which the walk begins. -/
def beforeWalk (m : Bytes) (t : Stacks) (frame stack ustack : Nat) : Bytes :=
  copyUserStack (copyKernelStack m t stack (stack + (frame - t.stackBase))) t frame
    (stack + (frame - t.stackBase)) ustack (t.userStackTop - t.userStackBase)

/-- Outside of the blocks of the child memory is as it was. -/
theorem beforeWalk_outside (hp : Placed t ustack) (hb : ForkBounds t frame stack ustack) {x : Nat} (hx : x < 4294967296)
    (hout : x < stack ∨ stack + 4096 ≤ x) (hout' : x < ustack ∨ ustack + (t.userStackTop - t.userStackBase) ≤ x) :
    beforeWalk m t frame stack ustack x = m x := by
  obtain ⟨hframe₁, hframe₂⟩ := hb.frame
  have hkernel := hb.kernel
  have hcopy := hb.copy
  have htop := hp.high
  have hne := hp.nonempty
  have hap := hp.apart
  unfold beforeWalk copyUserStack ebpAt userespAt
  rw [u32_of_lt (by omega), u32_of_lt (by omega), u32_of_lt (by omega), u32_of_lt (by omega),
    shiftWord_apart (by omega) hx (by omega), shiftWord_apart (by omega) hx (by omega),
    copyBytes_apply (by omega) (by omega) (by omega), if_neg (by omega)]
  exact copyKernelStack_outside hb hx hout

/-- The user stack is copied as it is. -/
theorem beforeWalk_plain (hp : Placed t ustack) (hb : ForkBounds t frame stack ustack) {x : Nat}
    (hx : t.userStackBase ≤ x) (hx' : x < t.userStackTop) :
    beforeWalk m t frame stack ustack (inCopy t ustack x) = m x := by
  obtain ⟨hframe₁, hframe₂⟩ := hb.frame
  have hkernel := hb.kernel
  have hcopy := hb.copy
  have htop := hp.high
  have hap := hp.apart
  have hparent := hb.parent
  have hchild := hb.child
  unfold beforeWalk copyUserStack ebpAt userespAt inCopy
  rw [u32_of_lt (by omega), u32_of_lt (by omega), u32_of_lt (by omega), u32_of_lt (by omega),
    shiftWord_apart (by omega) (by omega) (by omega), shiftWord_apart (by omega) (by omega) (by omega),
    copyBytes_apply (by omega) (by omega) (by omega), if_pos (by omega)]
  rw [show t.userStackBase + (ustack + (x - t.userStackBase) - ustack) = x by omega]
  exact copyKernelStack_outside hb (by omega) (by omega)

/-- The three words of the child's frame. -/
theorem beforeWalk_frame (hp : Placed t ustack) (hb : ForkBounds t frame stack ustack) :
    wordAt (beforeWalk m t frame stack ustack) (stack + (frame - t.stackBase) + userespAt) =
        shifted t ustack (wordAt m (frame + userespAt)) ∧
      wordAt (beforeWalk m t frame stack ustack) (stack + (frame - t.stackBase) + ebpAt) =
        shifted t ustack (wordAt m (frame + ebpAt)) ∧
      wordAt (beforeWalk m t frame stack ustack) (stack + (frame - t.stackBase) + eaxAt) = 0 := by
  obtain ⟨hframe₁, hframe₂⟩ := hb.frame
  have hkernel := hb.kernel
  have hcopy := hb.copy
  have htop := hp.high
  have hap := hp.apart
  have hapart := hb.apart
  have hchild := hb.child
  have hkernelChild := hb.kernelChild
  generalize hk : copyKernelStack m t stack (stack + (frame - t.stackBase)) = k
  generalize hu : copyBytes k ustack t.userStackBase (t.userStackTop - t.userStackBase) = u
  have hne := hp.nonempty
  have hsame (x : Nat) (hx : x < ustack ∨ ustack + (t.userStackTop - t.userStackBase) ≤ x) : u x = k x := by
    rw [← hu, copyBytes_apply (by omega) (by omega) (by omega), if_neg (by omega)]
  -- words of the two frames, before the shifts
  have hparent (o : Nat) (ho : o + 4 ≤ 76) : wordAt u (frame + o) = wordAt m (frame + o) := by
    refine wordAt_congr (by omega) (by omega) fun j hj => ?_
    rw [hsame _ (by omega), ← hk]
    exact copyKernelStack_outside hb (by omega) (by omega)
  have hframe (o : Nat) (ho : o + 4 ≤ 76) :
      wordAt u (stack + (frame - t.stackBase) + o) = wordAt k (stack + (frame - t.stackBase) + o) :=
    wordAt_congr (by omega) (by omega) fun j hj => hsame _ (by omega)
  have hword (o : Nat) (ho : o + 4 ≤ 76) (heax : o + 4 ≤ eaxAt ∨ eaxAt + 4 ≤ o) :
      wordAt u (stack + (frame - t.stackBase) + o) = wordAt u (frame + o) := by
    rw [hframe o ho, hparent o ho, ← hk]
    exact copyKernelStack_word hb ho heax
  have heax : wordAt u (stack + (frame - t.stackBase) + eaxAt) = 0 := by
    rw [hframe eaxAt (by decide), ← hk]
    exact copyKernelStack_eax hb
  have huseresp := hword userespAt (by decide) (by decide)
  have hebp := hword ebpAt (by decide) (by decide)
  unfold beforeWalk copyUserStack shifted
  rw [hk, hu, ← hparent userespAt (by decide), ← hparent ebpAt (by decide)]
  unfold userespAt ebpAt eaxAt at *
  rw [u32_of_lt (by omega), u32_of_lt (by omega), u32_of_lt (by omega), u32_of_lt (by omega)]
  refine ⟨?_, ?_, ?_⟩
  · rw [wordAt_shiftWord_apart (by omega) (by omega) (by omega)]
    exact wordAt_shiftWord (by omega) huseresp
  · rw [wordAt_shiftWord (by omega), wordAt_shiftWord_apart (by omega) (by omega) (by omega)]
    rw [wordAt_shiftWord_apart (by omega) (by omega) (by omega),
      wordAt_shiftWord_apart (by omega) (by omega) (by omega)]
    exact hebp
  · rw [wordAt_shiftWord_apart (by omega) (by omega) (by omega),
      wordAt_shiftWord_apart (by omega) (by omega) (by omega)]
    exact heax

end Copies

end LiteBSD.Frames
