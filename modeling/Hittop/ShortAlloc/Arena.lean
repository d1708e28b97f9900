/-
**The arena** (`third_party/short_alloc/short_alloc.h`).

An arena is a buffer that blocks are cut from, one after the other; what does not fit comes from
`operator new`.  Sizes are rounded up to the alignment.  Only the block that ends at `ptr_` is taken
back when it is returned; for any other block of the buffer, `deallocate` does nothing.

Main definitions:

* `Hittop.Arena` — the members of the class, with the bounds its assertions ask for;
* `Hittop.Arena.alignUp` — the rounding, in `std::size_t`;
* `Hittop.Arena.allocate`, `Hittop.Arena.deallocate`, `Hittop.Arena.reset` — its operations.

Main results:

* `Hittop.Arena.toNat_alignUp` — the rounding, with what becomes of an overflow;
* `Hittop.Arena.allocate_cases`, `Hittop.Arena.deallocate_cases` — all that an operation can do;
* `Hittop.Arena.allocate_of_overflow` — what it does with a size that cannot be rounded up.
-/

import Hittop.Io.CircularBuffer

set_option relaxedAutoImplicit false
set_option autoImplicit false

namespace Hittop

/-- What is left of a word where the bits of another one are cleared. -/
theorem and_not_eq_sub {w : ℕ} (x m : BitVec w) : x &&& ~~~m = x - (x &&& m) := by
  have hsum : (x &&& ~~~m) + (x &&& m) = x := by
    rw [BitVec.add_eq_or_of_and_eq_zero]
    · ext i hi
      simp only [BitVec.getElem_or, BitVec.getElem_and, BitVec.getElem_not]
      cases x[i] <;> cases m[i] <;> rfl
    · ext i hi
      simp only [BitVec.getElem_and, BitVec.getElem_not, BitVec.getElem_zero]
      cases x[i] <;> cases m[i] <;> rfl
  calc x &&& ~~~m = (x &&& ~~~m) + (x &&& m) - (x &&& m) := (BitVec.add_sub_cancel _ _).symm
    _ = x - (x &&& m) := by rw [hsum]

/-- `arena<N, alignment>`, where `alignment` is `1 << k` and `buf_` is at the address `buf`. -/
structure Arena (N k : ℕ) where
  buf : ℕ
  ptr : ℕ
  k_lt : k < 64
  buf_aligned : 1 <<< k ∣ buf
  buf_le_ptr : buf ≤ ptr
  ptr_le : ptr ≤ buf + N
  deriving DecidableEq

namespace Arena

variable {N k : ℕ}

/-- The constructor. -/
def ofBuffer (N buf : ℕ) (hk : k < 64) (h : 1 <<< k ∣ buf) : Arena N k where
  buf := buf
  ptr := buf
  k_lt := hk
  buf_aligned := h
  buf_le_ptr := le_rfl
  ptr_le := Nat.le_add_right _ _

def used (a : Arena N k) : ℕ := a.ptr - a.buf

def reset (a : Arena N k) : Arena N k :=
  { a with
    ptr := a.buf
    buf_le_ptr := le_rfl
    ptr_le := Nat.le_add_right _ _ }

/-- The template argument `alignment`. -/
def alignment (k : ℕ) : SizeT := BitVec.ofNat 64 (1 <<< k)

def alignUp (k : ℕ) (n : SizeT) : SizeT := (n + (alignment k - 1)) &&& ~~~(alignment k - 1)

/-- `pointer_in_buffer`, which counts the end of the buffer in. -/
def pointerInBuffer (a : Arena N k) (p : ℕ) : Bool := a.buf ≤ p && p ≤ a.buf + N

/-- `allocate`: a pointer into the buffer, or `none` where the result is that of `operator new`. -/
def allocate (a : Arena N k) (n : SizeT) : Option ℕ × Arena N k :=
  if h : (alignUp k n).toNat ≤ a.buf + N - a.ptr then
    (some a.ptr,
      { a with
        ptr := a.ptr + (alignUp k n).toNat
        buf_le_ptr := Nat.le_add_right_of_le a.buf_le_ptr
        ptr_le := (Nat.le_sub_iff_add_le' a.ptr_le).1 h })
  else (none, a)

/-- `deallocate`, and whether it calls `operator delete`. -/
def deallocate (a : Arena N k) (p : ℕ) (n : SizeT) : Bool × Arena N k :=
  if h : a.pointerInBuffer p then
    if p + (alignUp k n).toNat = a.ptr then
      (false,
        { a with
          ptr := p
          buf_le_ptr := by simp [pointerInBuffer] at h; exact h.1
          ptr_le := by simp [pointerInBuffer] at h; exact h.2 })
    else (false, a)
  else (true, a)

/-! ### Rounding -/

theorem toNat_alignment_sub_one (hk : k < 64) : (alignment k - 1).toNat = 2 ^ k - 1 := by
  have hlt : 2 ^ k < 2 ^ 64 := Nat.pow_lt_pow_right (by decide) hk
  have hpos : 0 < 2 ^ k := Nat.two_pow_pos k
  have hval : (alignment k).toNat = 2 ^ k := by
    rw [alignment, BitVec.toNat_ofNat, Nat.one_shiftLeft, Nat.mod_eq_of_lt hlt]
  rw [BitVec.toNat_sub_of_le, hval]
  · rfl
  · rw [BitVec.le_def, hval]
    exact hpos

/-- The sum is taken in `std::size_t`, and its last `k` bits are cleared. -/
theorem toNat_alignUp (hk : k < 64) (n : SizeT) :
    (alignUp k n).toNat = (n.toNat + (2 ^ k - 1)) % 2 ^ 64 / 2 ^ k * 2 ^ k := by
  have hm := toNat_alignment_sub_one hk
  have hsum : (n + (alignment k - 1)).toNat = (n.toNat + (2 ^ k - 1)) % 2 ^ 64 := by
    rw [BitVec.toNat_add, hm]
  have hand : (n + (alignment k - 1) &&& (alignment k - 1)).toNat =
      (n.toNat + (2 ^ k - 1)) % 2 ^ 64 % 2 ^ k := by
    rw [BitVec.toNat_and, hsum, hm, Nat.and_two_pow_sub_one_eq_mod]
  have hdiv := Nat.div_add_mod' ((n.toNat + (2 ^ k - 1)) % 2 ^ 64) (2 ^ k)
  rw [alignUp, and_not_eq_sub, BitVec.toNat_sub_of_le, hsum, hand]
  · omega
  · rw [BitVec.le_def, BitVec.toNat_and]
    exact Nat.and_le_left

theorem dvd_alignUp (hk : k < 64) (n : SizeT) : 1 <<< k ∣ (alignUp k n).toNat := by
  rw [toNat_alignUp hk, Nat.one_shiftLeft]
  exact Nat.dvd_mul_left _ _

/-- Where the sum does not overflow, a size is rounded up. -/
theorem le_alignUp (hk : k < 64) {n : SizeT} (h : n.toNat + 1 <<< k ≤ 2 ^ 64) :
    n.toNat ≤ (alignUp k n).toNat := by
  have hpos : 0 < 2 ^ k := Nat.two_pow_pos k
  rw [Nat.one_shiftLeft] at h
  rw [toNat_alignUp hk, Nat.mod_eq_of_lt (by omega)]
  have hmod := Nat.mod_lt (n.toNat + (2 ^ k - 1)) hpos
  have hdiv := Nat.div_add_mod' (n.toNat + (2 ^ k - 1)) (2 ^ k)
  omega

/-- A size whose sum does overflow is rounded to nothing. -/
theorem alignUp_of_overflow (hk : k < 64) {n : SizeT} (h : 2 ^ 64 < n.toNat + 1 <<< k) :
    (alignUp k n).toNat = 0 := by
  have hpos : 0 < 2 ^ k := Nat.two_pow_pos k
  have hle : 2 ^ k ≤ 2 ^ 64 := Nat.pow_le_pow_right (by decide) hk.le
  have hn := n.isLt
  rw [Nat.one_shiftLeft] at h
  have hmod : (n.toNat + (2 ^ k - 1)) % 2 ^ 64 = n.toNat + (2 ^ k - 1) - 2 ^ 64 := by
    rw [Nat.mod_eq_sub_mod (by omega)]
    exact Nat.mod_eq_of_lt (by omega)
  rw [toNat_alignUp hk, hmod, Nat.div_eq_of_lt (by omega), Nat.zero_mul]

/-! ### What the operations do -/

theorem pointerInBuffer_iff {a : Arena N k} {p : ℕ} :
    a.pointerInBuffer p = true ↔ a.buf ≤ p ∧ p ≤ a.buf + N := by
  simp [pointerInBuffer]

theorem allocate_cases (a : Arena N k) (n : SizeT) :
    ((a.allocate n).1 = some a.ptr ∧ a.ptr + (alignUp k n).toNat ≤ a.buf + N ∧
      (a.allocate n).2.ptr = a.ptr + (alignUp k n).toNat ∧ (a.allocate n).2.buf = a.buf) ∨
    ((a.allocate n).1 = none ∧ a.buf + N < a.ptr + (alignUp k n).toNat ∧
      (a.allocate n).2 = a) := by
  unfold allocate
  split
  · rename_i h
    exact .inl ⟨rfl, (Nat.le_sub_iff_add_le' a.ptr_le).1 h, rfl, rfl⟩
  · rename_i h
    rw [Nat.le_sub_iff_add_le' a.ptr_le] at h
    exact .inr ⟨rfl, not_le.1 h, rfl⟩

/-- **Where the rounding overflows**, nothing is set aside for the block that is returned: the next
one is at the same address. -/
theorem allocate_of_overflow (a : Arena N k) {n : SizeT} (h : 2 ^ 64 < n.toNat + 1 <<< k) :
    a.allocate n = (some a.ptr, a) := by
  have hzero := alignUp_of_overflow a.k_lt h
  rw [allocate, dif_pos (by omega)]
  simp only [hzero, Nat.add_zero]

theorem deallocate_cases (a : Arena N k) (p : ℕ) (n : SizeT) :
    (a.pointerInBuffer p = true ∧ p + (alignUp k n).toNat = a.ptr ∧
      (a.deallocate p n).1 = false ∧ (a.deallocate p n).2.ptr = p ∧
      (a.deallocate p n).2.buf = a.buf) ∨
    (a.pointerInBuffer p = true ∧ p + (alignUp k n).toNat ≠ a.ptr ∧
      a.deallocate p n = (false, a)) ∨
    (a.pointerInBuffer p = false ∧ a.deallocate p n = (true, a)) := by
  unfold deallocate
  split
  · rename_i hp
    split
    · rename_i h
      exact .inl ⟨hp, h, rfl, rfl, rfl⟩
    · rename_i h
      exact .inr (.inl ⟨hp, h, rfl⟩)
  · rename_i hp
    exact .inr (.inr ⟨Bool.not_eq_true _ ▸ hp, rfl⟩)

end Arena

end Hittop
