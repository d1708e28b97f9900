/-
**The blocks of an arena.**

Whoever uses an allocator keeps the blocks it has been given apart, asks for sizes that can be
rounded up, and gives each block back with the size it has asked for.  Where this is so, blocks in
use never overlap, and `pointer_in_buffer` tells the blocks of the buffer from those of
`operator new`, although it counts the end of the buffer in.  A block that is not the last one when
it is returned is lost until the next `reset`: the part of the buffer that is used is that of the
blocks in use and of those that have been lost.

Main definitions:

* `Hittop.Block`, `Hittop.Clients` — a block, and an arena with the blocks there are;
* `Hittop.AllocAct`, `Hittop.Clients.step` — allocations and deallocations;
* `Hittop.Clients.Sound` — where the blocks are.

Main results:

* `Hittop.Clients.step_cases` — all that an allocation or deallocation can do;
* `Hittop.arena_blocks_apart` — blocks do not overlap, and can be returned;
* `Hittop.arena_used_exact` — what is used of the buffer;
* `Hittop.arena_lifo_reclaims` — nothing is lost where the last block is returned first.
-/

import Hittop.Library.Run
import Hittop.ShortAlloc.Arena
import Mathlib.Algebra.BigOperators.Group.List.Basic
import Mathlib.Algebra.Ring.Nat
import Mathlib.Order.CompletePartialOrder
import Mathlib.Order.Interval.Set.Disjoint

set_option relaxedAutoImplicit false
set_option autoImplicit false

namespace Hittop

/-- A block: what `allocate` has returned, and the size it was called with. -/
structure Block where
  address : ℕ
  size : SizeT
  deriving DecidableEq

namespace Block

/-- The addresses of the bytes of a block. -/
def bytes (b : Block) : Set ℕ := Set.Ico b.address (b.address + b.size.toNat)

/-- The part of the buffer that a block takes up, if it is in the buffer. -/
def rounded (k : ℕ) (b : Block) : ℕ := (Arena.alignUp k b.size).toNat

end Block

/-- An arena, the blocks in use, those of them that `operator new` has returned, and the blocks of
the buffer that have been returned while they were not the last.  New blocks are put in front. -/
structure Clients (N k : ℕ) where
  arena : Arena N k
  live : List Block
  heap : List Block
  late : List Block
  deriving DecidableEq

/-- The calls of an allocator; `fresh` is what `operator new` returns if it is called. -/
inductive AllocAct where
  | allocate (n : SizeT) (fresh : ℕ)
  | deallocate (b : Block)
  | reset
  deriving DecidableEq

namespace Clients

variable {N k : ℕ} {s s' : Clients N k} {b c : Block} {act : AllocAct} {acts : List AllocAct}

/-- Nothing has been allocated. -/
def start (a : Arena N k) : Clients N k := ⟨a.reset, [], [], []⟩

def inside (s : Clients N k) (b : Block) : Bool := s.arena.pointerInBuffer b.address

/-- The storage that `operator new` may return: it is not part of any object there is. -/
def New (s : Clients N k) (b : Block) : Prop :=
  (b.address < s.arena.buf ∧ b.address + b.size.toNat ≤ s.arena.buf ∨
      s.arena.buf + N < b.address) ∧
    ∀ c ∈ s.heap, b.address + b.size.toNat ≤ c.address ∨ c.address + c.size.toNat ≤ b.address

instance : Decidable (s.New b) := inferInstanceAs (Decidable (_ ∧ _))

/-- A call.  A size leaves room for rounding it up, or else it gets a block that nothing is set
aside for (`Arena.allocate_of_overflow`); a block is returned while it is in use; and
`operator delete` is called with what `operator new` has returned.  The blocks of the buffer are not
used any more after `reset`. -/
def step (s : Clients N k) : AllocAct → Option (Clients N k)
  | .allocate n fresh =>
      if n.toNat + 1 <<< k ≤ 2 ^ 64 then
        match (s.arena.allocate n).1 with
        | some p => some { s with arena := (s.arena.allocate n).2, live := ⟨p, n⟩ :: s.live }
        | none =>
            if s.New ⟨fresh, n⟩ then
              some { s with live := ⟨fresh, n⟩ :: s.live, heap := ⟨fresh, n⟩ :: s.heap }
            else none
      else none
  | .deallocate b =>
      if b ∈ s.live then
        match (s.arena.deallocate b.address b.size).1 with
        | true =>
            if b ∈ s.heap then
              some { s with live := s.live.erase b, heap := s.heap.erase b }
            else none
        | false =>
            some { s with
              arena := (s.arena.deallocate b.address b.size).2
              live := s.live.erase b
              late := if b.address + b.rounded k = s.arena.ptr then s.late else b :: s.late }
      else none
  | .reset =>
      some { s with
        arena := s.arena.reset
        live := s.live.filter fun b => !s.inside b
        late := [] }

/-- What a call does: a block is cut from the buffer or comes from `operator new`; it is taken back
by the buffer, or lost, or returned to `operator delete`. -/
theorem step_cases (h : s.step act = some s') :
    (∃ n fresh, act = .allocate n fresh ∧ n.toNat + 1 <<< k ≤ 2 ^ 64 ∧
      s.arena.ptr + (Arena.alignUp k n).toNat ≤ s.arena.buf + N ∧
      s'.arena.ptr = s.arena.ptr + (Arena.alignUp k n).toNat ∧ s'.arena.buf = s.arena.buf ∧
      s'.live = ⟨s.arena.ptr, n⟩ :: s.live ∧ s'.heap = s.heap ∧ s'.late = s.late) ∨
    (∃ n fresh, act = .allocate n fresh ∧ n.toNat + 1 <<< k ≤ 2 ^ 64 ∧
      s.New ⟨fresh, n⟩ ∧
      s' = { s with live := ⟨fresh, n⟩ :: s.live, heap := ⟨fresh, n⟩ :: s.heap }) ∨
    (∃ b, act = .deallocate b ∧ b ∈ s.live ∧ s.inside b = true ∧
      b.address + b.rounded k = s.arena.ptr ∧ s'.arena.ptr = b.address ∧
      s'.arena.buf = s.arena.buf ∧ s'.live = s.live.erase b ∧ s'.heap = s.heap ∧
      s'.late = s.late) ∨
    (∃ b, act = .deallocate b ∧ b ∈ s.live ∧ s.inside b = true ∧
      b.address + b.rounded k ≠ s.arena.ptr ∧
      s' = { s with live := s.live.erase b, late := b :: s.late }) ∨
    (∃ b, act = .deallocate b ∧ b ∈ s.live ∧ s.inside b = false ∧ b ∈ s.heap ∧
      s' = { s with live := s.live.erase b, heap := s.heap.erase b }) ∨
    (act = .reset ∧ s'.arena = s.arena.reset ∧
      s'.live = s.live.filter (fun b => !s.inside b) ∧ s'.heap = s.heap ∧ s'.late = []) := by
  cases act with
  | allocate n fresh =>
      simp only [step] at h
      split at h
      · rename_i hn
        obtain ⟨hp, hroom, hptr, hbuf⟩ | ⟨hp, -, -⟩ := s.arena.allocate_cases n
        · rw [hp] at h
          obtain rfl := Option.some.inj h
          exact .inl ⟨n, fresh, rfl, hn, hroom, hptr, hbuf, rfl, rfl, rfl⟩
        · simp only [hp] at h
          split at h
          · rename_i hnew
            obtain rfl := Option.some.inj h
            exact .inr (.inl ⟨n, fresh, rfl, hn, hnew, rfl⟩)
          · cases h
      · cases h
  | deallocate b =>
      simp only [step] at h
      split at h
      · rename_i hb
        obtain ⟨hin, hend, hdel, hptr, hbuf⟩ | ⟨hin, hend, heq⟩ | ⟨hin, heq⟩ :=
          s.arena.deallocate_cases b.address b.size
        · simp only [hdel] at h
          obtain rfl := Option.some.inj h
          exact .inr (.inr (.inl ⟨b, rfl, hb, hin, hend, hptr, hbuf, rfl, rfl, if_pos hend⟩))
        · have hlate : (if b.address + b.rounded k = s.arena.ptr then s.late else b :: s.late) =
              b :: s.late := if_neg hend
          simp only [heq, hlate] at h
          obtain rfl := Option.some.inj h
          exact .inr (.inr (.inr (.inl ⟨b, rfl, hb, hin, hend, rfl⟩)))
        · simp only [heq] at h
          split at h
          · rename_i hheap
            obtain rfl := Option.some.inj h
            exact .inr (.inr (.inr (.inr (.inl ⟨b, rfl, hb, hin, hheap, rfl⟩))))
          · cases h
      · cases h
  | reset =>
      obtain rfl := Option.some.inj h
      exact .inr (.inr (.inr (.inr (.inr ⟨rfl, rfl, rfl, rfl, rfl⟩))))

end Clients

/-! ### Where the blocks are -/

namespace Block

variable {N k : ℕ} {a a' : Arena N k} {b c : Block} {bs bs' : List Block}

/-- What is set aside for a block. -/
def extent (a : Arena N k) (b : Block) : ℕ :=
  if a.pointerInBuffer b.address then b.rounded k else b.size.toNat

/-- What is set aside for two blocks does not overlap. -/
def Apart (a : Arena N k) (b c : Block) : Prop :=
  b.extent a = 0 ∨ c.extent a = 0 ∨
    b.address + b.extent a ≤ c.address ∨ c.address + c.extent a ≤ b.address

theorem Apart.symm (h : Apart a b c) : Apart a c b := by
  unfold Apart at *
  omega

theorem extent_inside (h : a.pointerInBuffer b.address = true) : b.extent a = b.rounded k :=
  if_pos h

theorem extent_outside (h : a.pointerInBuffer b.address = false) : b.extent a = b.size.toNat :=
  if_neg (by rw [h]; exact Bool.false_ne_true)

theorem pointerInBuffer_congr (h : a'.buf = a.buf) (p : ℕ) :
    a'.pointerInBuffer p = a.pointerInBuffer p := by
  rw [Arena.pointerInBuffer, Arena.pointerInBuffer, h]

theorem extent_congr (h : a'.buf = a.buf) : b.extent a' = b.extent a := by
  rw [extent, extent, pointerInBuffer_congr h]

theorem apart_congr (h : a'.buf = a.buf) : Apart a' b c ↔ Apart a b c := by
  unfold Apart
  rw [extent_congr h, extent_congr h]

/-- Every block has room for its bytes; it is in the buffer, below `ptr_`, or it is clear of the
buffer; and no two blocks overlap. -/
structure Placed (a : Arena N k) (bs : List Block) : Prop where
  fits : ∀ b ∈ bs, b.size.toNat ≤ b.rounded k
  outside : ∀ b ∈ bs, a.pointerInBuffer b.address = false →
    b.address + b.size.toNat ≤ a.buf ∨ a.buf + N < b.address
  aligned : ∀ b ∈ bs, a.pointerInBuffer b.address = true → 1 <<< k ∣ b.address
  below : ∀ b ∈ bs, a.pointerInBuffer b.address = true →
    b.rounded k = 0 ∨ b.address + b.rounded k ≤ a.ptr
  apart : bs.Pairwise (Apart a)

namespace Placed

theorem perm (h : Placed a bs) (hp : bs.Perm bs') : Placed a bs' where
  fits b hb := h.fits b (hp.mem_iff.2 hb)
  outside b hb := h.outside b (hp.mem_iff.2 hb)
  aligned b hb := h.aligned b (hp.mem_iff.2 hb)
  below b hb := h.below b (hp.mem_iff.2 hb)
  apart := hp.pairwise h.apart Apart.symm

theorem sublist (h : Placed a bs) (hs : bs'.Sublist bs) : Placed a bs' where
  fits b hb := h.fits b (hs.subset hb)
  outside b hb := h.outside b (hs.subset hb)
  aligned b hb := h.aligned b (hs.subset hb)
  below b hb := h.below b (hs.subset hb)
  apart := h.apart.sublist hs

/-- Where `ptr_` is does not matter to the blocks that are below it all the same. -/
theorem move (h : Placed a bs) (hbuf : a'.buf = a.buf)
    (hptr : ∀ b ∈ bs, a.pointerInBuffer b.address = true →
      b.rounded k = 0 ∨ b.address + b.rounded k ≤ a'.ptr) : Placed a' bs where
  fits := h.fits
  outside b hb hin := by
    rw [pointerInBuffer_congr hbuf] at hin
    rw [hbuf]
    exact h.outside b hb hin
  aligned b hb hin := by
    rw [pointerInBuffer_congr hbuf] at hin
    exact h.aligned b hb hin
  below b hb hin := by
    rw [pointerInBuffer_congr hbuf] at hin
    exact hptr b hb hin
  apart := h.apart.imp fun hbc => (apart_congr hbuf).2 hbc

/-- A block that ends at `ptr_` can be taken back: all others end where it begins. -/
theorem pop (h : Placed a (b :: bs)) (hin : a.pointerInBuffer b.address = true)
    (hend : b.address + b.rounded k = a.ptr) (hbuf : a'.buf = a.buf) (hptr : a'.ptr = b.address) :
    Placed a' bs := by
  refine (h.sublist (List.sublist_cons_self b bs)).move hbuf fun c hc hcin => ?_
  have hbelow := h.below c (List.mem_cons_of_mem b hc) hcin
  have hapart : Apart a b c := (List.pairwise_cons.1 h.apart).1 c hc
  rw [Apart, extent_inside hin, extent_inside hcin] at hapart
  omega

/-- A block is cut from the buffer. -/
theorem cut (h : Placed a bs) (hb : b.address = a.ptr) (hn : b.size.toNat + 1 <<< k ≤ 2 ^ 64)
    (hdvd : 1 <<< k ∣ a.ptr) (hbuf : a'.buf = a.buf) (hptr : a'.ptr = a.ptr + b.rounded k) :
    Placed a' (b :: bs) := by
  have hin : a'.pointerInBuffer b.address = true := by
    rw [pointerInBuffer_congr hbuf, Arena.pointerInBuffer_iff, hb]
    exact ⟨a.buf_le_ptr, a.ptr_le⟩
  have hmove : Placed a' bs := by
    refine h.move hbuf fun c hc hcin => ?_
    have := h.below c hc hcin
    omega
  refine ⟨?_, ?_, ?_, ?_, List.pairwise_cons.2 ⟨fun c hc => ?_, hmove.apart⟩⟩
  · exact List.forall_mem_cons.2 ⟨Arena.le_alignUp a.k_lt hn, hmove.fits⟩
  · refine List.forall_mem_cons.2 ⟨fun hout => ?_, hmove.outside⟩
    rw [hin] at hout
    cases hout
  · exact List.forall_mem_cons.2 ⟨fun _ => hb ▸ hdvd, hmove.aligned⟩
  · exact List.forall_mem_cons.2 ⟨fun _ => .inr (by omega), hmove.below⟩
  · -- what there is in the buffer ends below `ptr_`, and the rest is clear of the buffer
    rw [Apart, extent_inside hin, extent_congr hbuf]
    cases hcin : a.pointerInBuffer c.address with
    | true =>
        rw [extent_inside hcin]
        have := h.below c hc hcin
        omega
    | false =>
        rw [extent_outside hcin]
        have hout := h.outside c hc hcin
        have := a.buf_le_ptr
        have := a'.ptr_le
        omega

/-- A block comes from `operator new`. -/
theorem new (h : Placed a bs) (hn : b.size.toNat + 1 <<< k ≤ 2 ^ 64)
    (hclear : b.address < a.buf ∧ b.address + b.size.toNat ≤ a.buf ∨ a.buf + N < b.address)
    (hnew : ∀ c ∈ bs, a.pointerInBuffer c.address = false →
      b.address + b.size.toNat ≤ c.address ∨ c.address + c.size.toNat ≤ b.address) :
    Placed a (b :: bs) := by
  have hout : a.pointerInBuffer b.address = false := by
    rw [← Bool.not_eq_true, Arena.pointerInBuffer_iff]
    omega
  refine ⟨?_, ?_, ?_, ?_, List.pairwise_cons.2 ⟨fun c hc => ?_, h.apart⟩⟩
  · exact List.forall_mem_cons.2 ⟨Arena.le_alignUp a.k_lt hn, h.fits⟩
  · exact List.forall_mem_cons.2 ⟨fun _ => hclear.imp_left And.right, h.outside⟩
  · refine List.forall_mem_cons.2 ⟨fun hin => ?_, h.aligned⟩
    rw [hin] at hout
    cases hout
  · refine List.forall_mem_cons.2 ⟨fun hin => ?_, h.below⟩
    rw [hin] at hout
    cases hout
  · rw [Apart, extent_outside hout]
    cases hcin : a.pointerInBuffer c.address with
    | true =>
        rw [extent_inside hcin]
        have := h.below c hc hcin
        have := Arena.pointerInBuffer_iff.1 hcin
        have := a.ptr_le
        omega
    | false =>
        rw [extent_outside hcin]
        have := hnew c hc hcin
        omega

/-- Bytes of different blocks are different. -/
theorem disjoint (h : Placed a bs) : bs.Pairwise fun b c => Disjoint b.bytes c.bytes := by
  refine h.apart.imp_of_mem fun {b c} hb hc hbc => ?_
  have hfit : ∀ d ∈ bs, d.size.toNat ≤ d.extent a := by
    intro d hd
    unfold extent
    split
    · exact h.fits d hd
    · exact le_rfl
  have hfb := hfit b hb
  have hfc := hfit c hc
  rw [Set.disjoint_left]
  intro x hxb hxc
  have hxb := Set.mem_Ico.1 hxb
  have hxc := Set.mem_Ico.1 hxc
  unfold Apart at hbc
  omega

end Placed

end Block

namespace Clients

variable {N k : ℕ} {s s' : Clients N k} {a : Arena N k} {act : AllocAct} {acts : List AllocAct}

/-- Blocks are where they have room, and the heap has those that are not in the buffer. -/
structure Sound (s : Clients N k) : Prop where
  placed : Block.Placed s.arena (s.live ++ s.late)
  ptr_aligned : 1 <<< k ∣ s.arena.ptr
  late_inside : ∀ b ∈ s.late, s.inside b = true
  heap_perm : s.heap.Perm (s.live.filter fun b => !s.inside b)

theorem sound_start (a : Arena N k) : (start a).Sound where
  placed := ⟨by simp [start], by simp [start], by simp [start], by simp [start], List.Pairwise.nil⟩
  ptr_aligned := a.buf_aligned
  late_inside := by simp [start]
  heap_perm := List.Perm.refl _

theorem inside_congr (h : s'.arena.buf = s.arena.buf) (b : Block) : s'.inside b = s.inside b :=
  Block.pointerInBuffer_congr h b.address

theorem filter_congr_buf (h : s'.arena.buf = s.arena.buf) (bs : List Block) :
    (bs.filter fun b => !s'.inside b) = bs.filter fun b => !s.inside b :=
  List.filter_congr fun b _ => by rw [inside_congr h]

theorem heap_perm_cons (h : s.Sound) {b : Block} (hb : b ∈ s.live) (hout : s.inside b = false) :
    s.heap.Perm (b :: (s.live.erase b).filter fun c => !s.inside c) := by
  refine h.heap_perm.trans ?_
  have hp := (List.perm_cons_erase hb).filter fun c => !s.inside c
  rwa [List.filter_cons_of_pos (by rw [hout]; rfl)] at hp

theorem heap_perm_erase (h : s.Sound) {b : Block} (hb : b ∈ s.live) (hin : s.inside b = true) :
    s.heap.Perm ((s.live.erase b).filter fun c => !s.inside c) := by
  refine h.heap_perm.trans ?_
  have hp := (List.perm_cons_erase hb).filter fun c => !s.inside c
  rwa [List.filter_cons_of_neg (by rw [hin]; simp)] at hp

theorem step_sound (hs : s.Sound) (h : s.step act = some s') : s'.Sound := by
  obtain ⟨n, fresh, -, hn, -, hptr, hbuf, hlive, hheap, hlate⟩ | ⟨n, fresh, -, hn, hnew, rfl⟩ |
    ⟨b, -, hb, hin, hend, hptr, hbuf, hlive, hheap, hlate⟩ | ⟨b, -, hb, hin, -, rfl⟩ |
    ⟨b, -, hb, hout, -, rfl⟩ | ⟨-, harena, hlive, hheap, hlate⟩ := step_cases h
  · refine ⟨?_, ?_, fun c hc => ?_, ?_⟩
    · rw [hlive, hlate]
      exact hs.placed.cut rfl hn hs.ptr_aligned hbuf hptr
    · rw [hptr]
      exact Nat.dvd_add hs.ptr_aligned (Arena.dvd_alignUp s.arena.k_lt n)
    · rw [hlate] at hc
      rw [inside_congr hbuf]
      exact hs.late_inside c hc
    · have hin : s.inside ⟨s.arena.ptr, n⟩ = true :=
        Arena.pointerInBuffer_iff.2 ⟨s.arena.buf_le_ptr, s.arena.ptr_le⟩
      rw [filter_congr_buf hbuf, hheap, hlive, List.filter_cons_of_neg (by rw [hin]; simp)]
      exact hs.heap_perm
  · have hout : s.inside ⟨fresh, n⟩ = false := by
      rw [← Bool.not_eq_true, inside, Arena.pointerInBuffer_iff]
      have := hnew.1
      omega
    refine ⟨hs.placed.new hn hnew.1 fun c hc hcout => ?_, hs.ptr_aligned, hs.late_inside, ?_⟩
    · -- a block that is not in the buffer is one that `operator new` has returned
      obtain hc | hc := List.mem_append.1 hc
      · refine hnew.2 c (hs.heap_perm.mem_iff.2 (List.mem_filter.2 ⟨hc, ?_⟩))
        rw [inside, hcout]
        rfl
      · have hcin := hs.late_inside c hc
        rw [inside, hcout] at hcin
        cases hcin
    · change List.Perm (_ :: s.heap) (List.filter (fun b => !s.inside b) (_ :: s.live))
      rw [List.filter_cons_of_pos (by rw [hout]; rfl)]
      exact hs.heap_perm.cons _
  · refine ⟨?_, ?_, fun c hc => ?_, ?_⟩
    · rw [hlive, hlate]
      exact (hs.placed.perm ((List.perm_cons_erase hb).append_right s.late)).pop hin hend hbuf hptr
    · rw [hptr]
      exact hs.placed.aligned b (List.mem_append_left _ hb) hin
    · rw [hlate] at hc
      rw [inside_congr hbuf]
      exact hs.late_inside c hc
    · rw [filter_congr_buf hbuf, hheap, hlive]
      exact heap_perm_erase hs hb hin
  · refine ⟨hs.placed.perm ?_, hs.ptr_aligned, List.forall_mem_cons.2 ⟨hin, hs.late_inside⟩,
      heap_perm_erase hs hb hin⟩
    exact ((List.perm_cons_erase hb).append_right s.late).trans List.perm_middle.symm
  · refine ⟨hs.placed.sublist (List.erase_sublist.append_right s.late), hs.ptr_aligned,
      hs.late_inside, ?_⟩
    have hp := (heap_perm_cons hs hb hout).erase b
    rwa [List.erase_cons_head] at hp
  · have hbuf : s'.arena.buf = s.arena.buf := by rw [harena]; rfl
    refine ⟨?_, ?_, ?_, ?_⟩
    · rw [hlive, hlate, List.append_nil]
      refine (hs.placed.sublist ?_).move hbuf fun b hb hin => ?_
      · exact List.filter_sublist.trans (List.sublist_append_left s.live s.late)
      · have hout := (List.mem_filter.1 hb).2
        rw [inside, hin] at hout
        cases hout
    · rw [harena]
      exact s.arena.buf_aligned
    · rw [hlate]
      exact fun b hb => nomatch hb
    · rw [filter_congr_buf hbuf, hheap, hlive, List.filter_filter]
      simpa using hs.heap_perm

theorem sound (h : Run.run step (start a) acts = some s) : s.Sound :=
  Run.run_invariant (I := Sound) (fun _ _ _ hs h => step_sound hs h) h (sound_start a)

/-- A block in use can be returned: where it is not in the buffer, `operator new` has returned
it. -/
theorem deallocate_isSome (hs : s.Sound) {b : Block} (hb : b ∈ s.live) :
    (s.step (.deallocate b)).isSome = true := by
  simp only [step, if_pos hb]
  obtain ⟨-, -, hdel, -⟩ | ⟨-, -, heq⟩ | ⟨hout, heq⟩ :=
    s.arena.deallocate_cases b.address b.size
  · simp [hdel]
  · simp [heq]
  · have hheap : b ∈ s.heap := (heap_perm_cons hs hb hout).mem_iff.2 List.mem_cons_self
    simp [heq, hheap]

end Clients

/-- **Blocks do not overlap**, over every run of allocations and deallocations: a block in use is an
aligned part of the buffer, or it is clear of the buffer and comes from `operator new`; no two of
them share a byte; and every one of them can be returned, to where it has come from. -/
theorem arena_blocks_apart {N k : ℕ} (a : Arena N k) (acts : List AllocAct) (s : Clients N k)
    (h : Run.run Clients.step (Clients.start a) acts = some s) :
    (s.live.Pairwise fun b c => Disjoint b.bytes c.bytes) ∧
      (∀ b ∈ s.live,
        b.bytes ⊆ Set.Ico s.arena.buf (s.arena.buf + N) ∧ 1 <<< k ∣ b.address ∨
          Disjoint b.bytes (Set.Ico s.arena.buf (s.arena.buf + N)) ∧ b ∈ s.heap) ∧
      (∀ b ∈ s.live, (s.step (.deallocate b)).isSome = true) ∧
      (s.live = [] → s.heap = []) := by
  have hs := Clients.sound h
  refine ⟨?_, fun b hb => ?_, fun b hb => Clients.deallocate_isSome hs hb, fun hnil => ?_⟩
  · exact hs.placed.disjoint.sublist (List.sublist_append_left s.live s.late)
  · have hmem : b ∈ s.live ++ s.late := List.mem_append_left _ hb
    cases hin : s.inside b with
    | true =>
        refine .inl ⟨fun x hx => ?_, hs.placed.aligned b hmem hin⟩
        have hx := Set.mem_Ico.1 hx
        have hfit := hs.placed.fits b hmem
        have hbelow := hs.placed.below b hmem hin
        have hbuf := Arena.pointerInBuffer_iff.1 hin
        have hptr := s.arena.ptr_le
        exact Set.mem_Ico.2 ⟨by omega, by omega⟩
    | false =>
        refine .inr ⟨Set.disjoint_left.2 fun x hx hx' => ?_, ?_⟩
        · have hx := Set.mem_Ico.1 hx
          have hx' := Set.mem_Ico.1 hx'
          have hclear := hs.placed.outside b hmem hin
          omega
        · exact (Clients.heap_perm_cons hs hb hin).mem_iff.2 List.mem_cons_self
  · have hp := hs.heap_perm
    rw [hnil] at hp
    exact hp.eq_nil

/-- Forty bytes do not fit behind twenty in a buffer of sixty-four. -/
theorem arena_blocks_apart_heap :
    ∃ s : Clients 64 4, Run.run Clients.step
      (Clients.start (.ofBuffer 64 4096 (by decide) (by decide)))
      [.allocate 20 0, .allocate 40 8192, .allocate 10 0] = some s ∧
      s.live.Pairwise fun b c => Disjoint b.bytes c.bytes := by
  have hrun : (Run.run Clients.step
      (Clients.start (.ofBuffer 64 4096 (by decide) (by decide) : Arena 64 4))
      [.allocate 20 0, .allocate 40 8192, .allocate 10 0]).isSome := by
    decide +kernel
  obtain ⟨s, h⟩ := Option.isSome_iff_exists.1 hrun
  exact ⟨s, h, (arena_blocks_apart _ _ s h).1⟩

/-! ### What is used of the buffer -/

namespace Block

/-- The part of the buffer that some blocks take up. -/
def total (k : ℕ) (bs : List Block) : ℕ := (bs.map (rounded k)).sum

@[simp] theorem total_nil (k : ℕ) : total k [] = 0 := rfl

@[simp] theorem total_cons (k : ℕ) (b : Block) (bs : List Block) :
    total k (b :: bs) = b.rounded k + total k bs := by
  simp [total]

theorem total_perm {k : ℕ} {bs bs' : List Block} (h : bs.Perm bs') : total k bs = total k bs' :=
  (h.map (rounded k)).sum_eq

end Block

namespace Clients

variable {N k : ℕ} {s s' : Clients N k} {a : Arena N k} {b : Block} {act : AllocAct}
  {acts : List AllocAct}

/-- The blocks of the buffer that are in use. -/
def buffered (s : Clients N k) : List Block := s.live.filter s.inside

theorem total_erase_inside (hb : b ∈ s.live) (hin : s.inside b = true) :
    Block.total k s.buffered = b.rounded k + Block.total k ((s.live.erase b).filter s.inside) := by
  have hp := (List.perm_cons_erase hb).filter s.inside
  rw [List.filter_cons_of_pos hin] at hp
  rw [buffered, Block.total_perm hp, Block.total_cons]

/-- The first of the blocks in the buffer is taken away. -/
theorem buffered_erase_inside {bs : List Block} (hbs : s.buffered = b :: bs) :
    (s.live.erase b).filter s.inside = bs := by
  have hin : s.inside b = true := by
    have hmem : b ∈ s.buffered := hbs ▸ List.mem_cons_self
    exact (List.mem_filter.1 hmem).2
  obtain ⟨front, rest, hlive, hfront, -, hrest⟩ := List.filter_eq_cons_iff.1 hbs
  have hnot : b ∉ front := fun hb => absurd hin (hfront b hb)
  rw [hlive, List.erase_append_right _ hnot, List.erase_cons_head, List.filter_append, hrest,
    List.filter_eq_nil_iff.2 hfront, List.nil_append]

theorem buffered_erase_outside (hout : s.inside b = false) :
    (s.live.erase b).filter s.inside = s.buffered := by
  by_cases hb : b ∈ s.live
  · obtain ⟨front, rest, hlive, herase⟩ := List.exists_erase_eq hb
    obtain ⟨hlive, herase⟩ := herase
    rw [herase, buffered, hlive, List.filter_append, List.filter_append,
      List.filter_cons_of_neg (by rw [hout]; exact Bool.false_ne_true)]
  · rw [List.erase_of_not_mem hb, buffered]

theorem filter_inside_congr (h : s'.arena.buf = s.arena.buf) (bs : List Block) :
    bs.filter s'.inside = bs.filter s.inside :=
  List.filter_congr fun b _ => inside_congr h b

/-- `ptr_` has gone over the blocks in use and those that have been lost. -/
def Exact (s : Clients N k) : Prop :=
  s.arena.ptr = s.arena.buf + Block.total k s.buffered + Block.total k s.late

theorem step_exact (hs : s.Exact) (h : s.step act = some s') : s'.Exact := by
  unfold Exact at *
  obtain ⟨n, fresh, -, -, -, hptr, hbuf, hlive, -, hlate⟩ | ⟨n, fresh, -, -, hnew, rfl⟩ |
    ⟨b, -, hb, hin, hend, hptr, hbuf, hlive, -, hlate⟩ | ⟨b, -, hb, hin, -, rfl⟩ |
    ⟨b, -, hb, hout, -, rfl⟩ | ⟨-, harena, hlive, -, hlate⟩ := step_cases h
  · have hin : s.inside ⟨s.arena.ptr, n⟩ = true :=
      Arena.pointerInBuffer_iff.2 ⟨s.arena.buf_le_ptr, s.arena.ptr_le⟩
    rw [hptr, hbuf, hlate, buffered, hlive, filter_inside_congr hbuf,
      List.filter_cons_of_pos hin, Block.total_cons]
    change _ = _ + ((Arena.alignUp k n).toNat + _) + _
    unfold buffered at hs
    omega
  · have hout : ¬ s.inside ⟨fresh, n⟩ = true := by
      rw [inside, Arena.pointerInBuffer_iff]
      have := hnew.1
      omega
    change s.arena.ptr = s.arena.buf + Block.total k (List.filter s.inside (_ :: s.live)) + _
    rw [List.filter_cons_of_neg hout]
    exact hs
  · rw [total_erase_inside hb hin] at hs
    rw [hptr, hbuf, hlate, buffered, hlive, filter_inside_congr hbuf]
    omega
  · rw [total_erase_inside hb hin] at hs
    change s.arena.ptr = s.arena.buf + Block.total k (List.filter s.inside (s.live.erase b)) +
      Block.total k (b :: s.late)
    rw [Block.total_cons]
    omega
  · rw [← buffered_erase_outside hout] at hs
    exact hs
  · have hbuf : s'.arena.buf = s.arena.buf := by rw [harena]; rfl
    have hnone : (s.live.filter fun b => !s.inside b).filter s.inside = [] := by
      rw [List.filter_filter, List.filter_eq_nil_iff]
      simp
    rw [hlate, buffered, hlive, filter_inside_congr hbuf, hnone, harena]
    rfl

/-- If a call returns a block of the buffer, it is the one allocated last of those in use there.
The blocks of `operator new` may be returned in any order. -/
def LastFirst (s : Clients N k) (act : AllocAct) : Prop :=
  ∀ b, act = .deallocate b → s.inside b = true → s.buffered.head? = some b

instance (s : Clients N k) (act : AllocAct) : Decidable (s.LastFirst act) :=
  match act with
  | .allocate _ _ => .isTrue (by simp [LastFirst])
  | .deallocate b =>
      decidable_of_iff (s.inside b = true → s.buffered.head? = some b) (by simp [LastFirst])
  | .reset => .isTrue (by simp [LastFirst])

/-- The blocks in use, the last one in front, lie in the buffer without gaps below `ptr`. -/
def Stacked (k buf : ℕ) : ℕ → List Block → Prop
  | ptr, [] => ptr = buf
  | ptr, b :: bs => ptr = b.address + b.rounded k ∧ Stacked k buf b.address bs

theorem step_stacked (hP : s.LastFirst act) (h : s.step act = some s')
    (hs : Stacked k s.arena.buf s.arena.ptr s.buffered ∧ s.late = []) :
    Stacked k s'.arena.buf s'.arena.ptr s'.buffered ∧ s'.late = [] := by
  obtain ⟨hs, hnil⟩ := hs
  -- a block of the buffer that is returned is the first one of those in it
  have hhead : ∀ b, act = .deallocate b → s.inside b = true → ∃ bs, s.buffered = b :: bs := by
    intro b hb hin
    have hfirst := hP b hb hin
    cases hl : s.buffered with
    | nil =>
        rw [hl] at hfirst
        cases hfirst
    | cons c bs =>
        rw [hl] at hfirst
        obtain rfl := Option.some.inj hfirst
        exact ⟨bs, rfl⟩
  obtain ⟨n, fresh, -, -, -, hptr, hbuf, hlive, -, hlate⟩ | ⟨n, fresh, -, -, hnew, rfl⟩ |
    ⟨b, hact, -, hin, hend, hptr, hbuf, hlive, -, hlate⟩ | ⟨b, hact, -, hin, hend, rfl⟩ |
    ⟨b, hact, -, hout, -, rfl⟩ | ⟨-, harena, hlive, -, hlate⟩ := step_cases h
  · have hin : s.inside ⟨s.arena.ptr, n⟩ = true :=
      Arena.pointerInBuffer_iff.2 ⟨s.arena.buf_le_ptr, s.arena.ptr_le⟩
    refine ⟨?_, hlate.trans hnil⟩
    rw [hptr, hbuf, buffered, hlive, filter_inside_congr hbuf, List.filter_cons_of_pos hin]
    exact ⟨rfl, hs⟩
  · have hout : ¬ s.inside ⟨fresh, n⟩ = true := by
      rw [inside, Arena.pointerInBuffer_iff]
      have := hnew.1
      omega
    refine ⟨?_, hnil⟩
    change Stacked k s.arena.buf s.arena.ptr (List.filter s.inside (_ :: s.live))
    rw [List.filter_cons_of_neg hout]
    exact hs
  · obtain ⟨bs, hbs⟩ := hhead b hact hin
    refine ⟨?_, hlate.trans hnil⟩
    rw [hbs] at hs
    rw [hptr, hbuf, buffered, hlive, filter_inside_congr hbuf, buffered_erase_inside hbs]
    exact hs.2
  · obtain ⟨bs, hbs⟩ := hhead b hact hin
    rw [hbs] at hs
    exact absurd hs.1.symm hend
  · refine ⟨?_, hnil⟩
    change Stacked k s.arena.buf s.arena.ptr (List.filter s.inside (s.live.erase b))
    rw [buffered_erase_outside hout]
    exact hs
  · have hbuf : s'.arena.buf = s.arena.buf := by rw [harena]; rfl
    have hnone : (s.live.filter fun b => !s.inside b).filter s.inside = [] := by
      rw [List.filter_filter, List.filter_eq_nil_iff]
      simp
    refine ⟨?_, hlate⟩
    rw [buffered, hlive, filter_inside_congr hbuf, hnone, harena]
    rfl

theorem exact (h : Run.run step (start a) acts = some s) : s.Exact :=
  Run.run_invariant (I := Exact) (fun _ _ _ hs h => step_exact hs h) h rfl

end Clients

/-- **What is used of the buffer**, over every run: the blocks in use and those that have been
returned while they were not the last, each with its size rounded up.  Nothing of the latter is
given out again. -/
theorem arena_used_exact {N k : ℕ} (a : Arena N k) (acts : List AllocAct) (s : Clients N k)
    (h : Run.run Clients.step (Clients.start a) acts = some s) :
    s.arena.used = Block.total k s.buffered + Block.total k s.late ∧
      ∀ b ∈ s.late, ∀ c ∈ s.live, Disjoint b.bytes c.bytes := by
  constructor
  · have hexact := Clients.exact h
    unfold Clients.Exact at hexact
    unfold Arena.used
    omega
  · intro b hb c hc
    have hpair := (Clients.sound h).placed.disjoint
    exact ((List.pairwise_append.1 hpair).2.2 c hc b hb).symm

/-- The first of two blocks is returned first, and is lost. -/
theorem arena_used_exact_late :
    ∃ s : Clients 64 4, Run.run Clients.step
      (Clients.start (.ofBuffer 64 4096 (by decide) (by decide)))
      [.allocate 20 0, .allocate 10 0, .deallocate ⟨4096, 20⟩, .deallocate ⟨4128, 10⟩] = some s ∧
      s.live = [] ∧ s.arena.used = Block.total 4 [⟨4096, 20⟩] := by
  have hrun : ((Run.run Clients.step
      (Clients.start (.ofBuffer 64 4096 (by decide) (by decide) : Arena 64 4))
      [.allocate 20 0, .allocate 10 0, .deallocate ⟨4096, 20⟩, .deallocate ⟨4128, 10⟩]).map
        fun s => (s.live, s.late)) = some ([], [⟨4096, 20⟩]) := by
    decide +kernel
  obtain ⟨s, h, heq⟩ := Option.map_eq_some_iff.1 hrun
  obtain ⟨hlive, hlate⟩ := Prod.mk.inj heq
  have hused := (arena_used_exact _ _ s h).1
  rw [hlate, Clients.buffered, hlive] at hused
  exact ⟨s, h, hlive, hused.trans (Nat.zero_add _)⟩

/-- **Nothing is lost** where the blocks of the buffer are returned in the order opposite to that of
their allocations: what is used of the buffer is what the blocks in use take up. -/
theorem arena_lifo_reclaims {N k : ℕ} (a : Arena N k) (acts : List AllocAct) (s : Clients N k)
    (hlast : Run.Along Clients.step Clients.LastFirst (Clients.start a) acts)
    (h : Run.run Clients.step (Clients.start a) acts = some s) :
    s.arena.used = Block.total k s.buffered ∧ s.late = [] := by
  have hlate : s.late = [] :=
    (Run.run_invariant_along
      (I := fun s => Clients.Stacked k s.arena.buf s.arena.ptr s.buffered ∧ s.late = [])
      (fun _ _ _ hs hP h => Clients.step_stacked hP h hs) hlast h
      (show Clients.Stacked k a.buf a.buf [] ∧ [] = [] from ⟨rfl, rfl⟩)).2
  have hexact := Clients.exact h
  unfold Clients.Exact at hexact
  rw [hlate, Block.total_nil] at hexact
  unfold Arena.used
  exact ⟨by omega, hlate⟩

/-- The last block of the buffer is returned first, and one of `operator new` in between. -/
theorem arena_lifo_reclaims_both :
    ∃ s : Clients 64 4, Run.run Clients.step
      (Clients.start (.ofBuffer 64 4096 (by decide) (by decide)))
      [.allocate 40 8192, .allocate 40 8192, .allocate 10 0, .deallocate ⟨4144, 10⟩,
        .deallocate ⟨8192, 40⟩, .deallocate ⟨4096, 40⟩] = some s ∧ s.arena.used = 0 := by
  have hrun : ((Run.run Clients.step
      (Clients.start (.ofBuffer 64 4096 (by decide) (by decide) : Arena 64 4))
      [.allocate 40 8192, .allocate 40 8192, .allocate 10 0, .deallocate ⟨4144, 10⟩,
        .deallocate ⟨8192, 40⟩, .deallocate ⟨4096, 40⟩]).map Clients.live) = some [] := by
    decide +kernel
  obtain ⟨s, h, hlive⟩ := Option.map_eq_some_iff.1 hrun
  have hlast : Run.Along Clients.step Clients.LastFirst
      (Clients.start (.ofBuffer 64 4096 (by decide) (by decide) : Arena 64 4))
      [.allocate 40 8192, .allocate 40 8192, .allocate 10 0, .deallocate ⟨4144, 10⟩,
        .deallocate ⟨8192, 40⟩, .deallocate ⟨4096, 40⟩] := by
    decide +kernel
  have hused := (arena_lifo_reclaims _ _ s hlast h).1
  rw [Clients.buffered, hlive] at hused
  exact ⟨s, h, hused⟩

end Hittop
