/-
**The nodes of a trie** (`container/trie.h`).

A node keeps the bytes that lead to a child in 256 bits, four words of them, and its children
without gaps.  `GetIndex` finds the word of a byte by masks on the position, and counts the bits
before.  The masks are four bits apart where a word holds six bits of the position, and the masks
below a position are built in `int`.

Main definitions:

* `Hittop.Trie.Undefined` — how evaluation can fail to have a value;
* `Hittop.Trie.Node`, `Hittop.Trie.Node.getIndex` — a node, and the index of a child;
* `Hittop.Trie.Node.rank` — the number of bits before a position.

Main results:

* `Hittop.Trie.below_eq` — the mask of the bits below a position, and when it has a value;
* `Hittop.Trie.Node.getIndex_eq` — the index, by where the position is;
* `Hittop.Trie.index_rank_iff` — when the index is the rank;
* `Hittop.Trie.Node.getIndex_lt` — indices are in the order of the bytes where they are defined.
-/

import Hittop.Library.Rank

set_option relaxedAutoImplicit false
set_option autoImplicit false

namespace Hittop

namespace Trie

/-- How an evaluation ends without a value. -/
inductive Undefined where
  /-- an assertion does not hold -/
  | assertion
  /-- the amount of a shift is not below the width of what is shifted -/
  | shift
  /-- a signed result is out of range -/
  | overflow
  deriving DecidableEq, Repr

/-- `bit_size<char>()`. -/
def bitSize : ℕ := 1 * 8

/-- `upper_bound<char>()`. -/
def upperBound : BitVec 64 := ((1 : BitVec 32) <<< bitSize).signExtend 64

/-- `popcount`. -/
def popcount (bits : BitVec 64) : ℕ := bits.cpop.toNat

/-- `1 << amount`, in `int`. -/
def shiftOne (amount : BitVec 64) : Except Undefined (BitVec 32) :=
  if amount < 32 then .ok ((1 : BitVec 32) <<< amount) else .error .shift

/-- `x - 1`, in `int`. -/
def subOne (x : BitVec 32) : Except Undefined (BitVec 32) :=
  if BitVec.ssubOverflow x 1 then .error .overflow else .ok (x - 1)

/-- `(1 << amount) - 1`, as an operand of `&` with a word. -/
def below (amount : BitVec 64) : Except Undefined (BitVec 64) := do
  let x ← shiftOne amount
  let y ← subOne x
  return y.signExtend 64

/-- The masks of `GetIndex`, but for `mask0`, which nothing reads. -/
def mask1 : BitVec 64 := (0x3 : BitVec 64) <<< 4

def mask2 : BitVec 64 := (0x3 : BitVec 64) <<< 8

def mask3 : BitVec 64 := (0x3 : BitVec 64) <<< 12

/-- `Trie<char, Allocator>::Node`, without the children. -/
structure Node where
  present_ : Vector (BitVec 64) 4
  deriving DecidableEq, Repr

namespace Node

/-- `Node::GetIndex`. -/
def getIndex (n : Node) (position : BitVec 64) : Except Undefined ℕ := do
  if ¬ position < upperBound then
    throw .assertion
  if position &&& mask3 ≠ 0 then
    let low ← below (position - (256 - 64 * 1))
    return popcount n.present_[0] + popcount n.present_[1] + popcount n.present_[2] +
      popcount (low &&& n.present_[3])
  else if position &&& mask2 ≠ 0 then
    let low ← below (position - (256 - 64 * 2))
    return popcount n.present_[0] + popcount n.present_[1] + popcount (low &&& n.present_[2])
  else if position &&& mask1 ≠ 0 then
    let low ← below (position - (256 - 64 * 3))
    return popcount n.present_[0] + popcount (low &&& n.present_[1])
  else
    let low ← below (position - (256 - 64 * 4))
    return popcount (low &&& n.present_[0])

/-- The words, as a sequence. -/
def word (n : Node) (i : ℕ) : BitVec 64 := n.present_[i]?.getD 0

/-- Is there a child for the byte `i`? -/
def isPresent (n : Node) (i : ℕ) : Bool := Rank.has n.word i

/-- The number of bytes before `i` that have a child. -/
def rank (n : Node) (i : ℕ) : ℕ := Nat.count (fun j => n.isPresent j = true) i

end Node

/-! ### The mask -/

/-- The mask is that of the bits below the amount up to `30`.  The mask of 31 bits would be the
difference of the least `int` and 1, and the others are shifts by too much. -/
theorem below_eq (amount : BitVec 64) : below amount =
    if amount.toNat < 31 then .ok (Rank.lowMask 64 amount.toNat)
    else if amount.toNat = 31 then .error .overflow
    else .error .shift := by
  have hsmall : ∀ k : Fin 32, below (BitVec.ofNat 64 k) =
      if (k : ℕ) < 31 then .ok (Rank.lowMask 64 k) else .error .overflow := by decide +kernel
  by_cases h : amount.toNat < 32
  · have heq := hsmall ⟨amount.toNat, h⟩
    rw [BitVec.ofNat_toNat, BitVec.setWidth_eq] at heq
    rw [heq]
    by_cases hlt : amount.toNat < 31
    · rw [if_pos hlt, if_pos hlt]
    · rw [if_neg hlt, if_neg hlt, if_pos (by omega)]
  · have hshift : shiftOne amount = .error .shift :=
      if_neg fun hlt => h (BitVec.lt_def.1 hlt)
    rw [if_neg (by omega), if_neg (by omega), below, hshift]
    rfl

theorem map_below_eq_ok_iff {amount : BitVec 64} {f : BitVec 64 → ℕ} {k : ℕ} :
    (below amount).map f = .ok k ↔
      amount.toNat < 31 ∧ k = f (Rank.lowMask 64 amount.toNat) := by
  rw [below_eq]
  by_cases hlt : amount.toNat < 31
  · simp [hlt, Except.map, eq_comm]
  · by_cases heq : amount.toNat = 31 <;> simp [hlt, heq, Except.map]

/-! ### The index -/

/-- The two highest masks select no bit of a byte, and `mask1` selects two of the six bits that are
the position in a word. -/
theorem masks_eq {position : BitVec 64} (h : position.toNat < 256) :
    position &&& mask3 = 0 ∧ position &&& mask2 = 0 ∧
      (position &&& mask1 = 0 ↔ position.toNat % 64 < 16) := by
  have hall : ∀ k : Fin 256, BitVec.ofNat 64 k &&& mask3 = 0 ∧ BitVec.ofNat 64 k &&& mask2 = 0 ∧
      (BitVec.ofNat 64 k &&& mask1 = 0 ↔ (k : ℕ) % 64 < 16) := by decide +kernel
  have hk := hall ⟨position.toNat, h⟩
  rwa [BitVec.ofNat_toNat, BitVec.setWidth_eq] at hk

namespace Node

variable {n : Node} {position : BitVec 64}

theorem getIndex_of_le (h : 256 ≤ position.toNat) : n.getIndex position = .error .assertion := by
  have hassert : ¬ position < upperBound := by
    rw [BitVec.lt_def]
    exact Nat.not_lt.2 h
  rw [getIndex, if_pos hassert]
  rfl

theorem getIndex_of_mod_lt (h : position.toNat < 256) (hmod : position.toNat % 64 < 16) :
    n.getIndex position =
      (below position).map fun low => popcount (low &&& n.present_[0]) := by
  have hassert : position < upperBound := BitVec.lt_def.2 h
  obtain ⟨h3, h2, h1⟩ := masks_eq h
  have hzero : position - (256 - 64 * 4) = position := BitVec.sub_zero _
  rw [getIndex, if_neg (not_not.2 hassert), if_neg (not_not.2 h3), if_neg (not_not.2 h2),
    if_neg (not_not.2 (h1.2 hmod)), hzero]
  cases below position <;> rfl

theorem getIndex_of_le_mod (h : position.toNat < 256) (hmod : 16 ≤ position.toNat % 64) :
    n.getIndex position = (below (position - 64)).map fun low =>
      popcount n.present_[0] + popcount (low &&& n.present_[1]) := by
  have hassert : position < upperBound := BitVec.lt_def.2 h
  obtain ⟨h3, h2, h1⟩ := masks_eq h
  have hmask1 : position &&& mask1 ≠ 0 := fun h => Nat.not_lt.2 hmod (h1.1 h)
  rw [getIndex, if_neg (not_not.2 hassert), if_neg (not_not.2 h3), if_neg (not_not.2 h2),
    if_pos hmask1]
  show (below (position - 64) >>= _) = _
  cases below (position - 64) <;> rfl

theorem rank_of_le {a : ℕ} (ha : a ≤ 64) :
    n.rank a = popcount (Rank.lowMask 64 a &&& n.present_[0]) := by
  have h := Rank.count_has n.word 0 ha
  rw [Nat.mul_zero, Nat.zero_add] at h
  rw [rank, BitVec.and_comm]
  exact h.trans (Nat.zero_add _)

theorem rank_add_of_le {a : ℕ} (ha : a ≤ 64) : n.rank (64 + a) =
    popcount n.present_[0] + popcount (Rank.lowMask 64 a &&& n.present_[1]) := by
  have h := Rank.count_has n.word 1 ha
  rw [Nat.mul_one] at h
  rw [rank, BitVec.and_comm]
  exact h

/-- Where the index is defined it is the rank: in a quarter of the first word, and in the part of
the second word where the mask is. -/
theorem getIndex_eq_ok_iff {k : ℕ} : n.getIndex position = .ok k ↔
    (position.toNat < 16 ∨ 80 ≤ position.toNat ∧ position.toNat < 95) ∧
      k = n.rank position.toNat := by
  by_cases h : position.toNat < 256
  · by_cases hmod : position.toNat % 64 < 16
    · have hcond : position.toNat < 31 ↔
          position.toNat < 16 ∨ 80 ≤ position.toNat ∧ position.toNat < 95 := by omega
      rw [getIndex_of_mod_lt h hmod, map_below_eq_ok_iff, hcond]
      refine and_congr_right fun hp => ?_
      rw [rank_of_le (by omega)]
    · have hsub : (position - 64).toNat = (position.toNat + (2 ^ 64 - 64)) % 2 ^ 64 := by
        rw [BitVec.toNat_sub, Nat.add_comm]
        rfl
      have hcond : (position - 64).toNat < 31 ↔
          position.toNat < 16 ∨ 80 ≤ position.toNat ∧ position.toNat < 95 := by omega
      rw [getIndex_of_le_mod h (Nat.not_lt.1 hmod), map_below_eq_ok_iff, hcond]
      refine and_congr_right fun hp => ?_
      have hamount : position.toNat = 64 + (position - 64).toNat := by omega
      rw [← rank_add_of_le (by omega), ← hamount]
  · rw [getIndex_of_le (Nat.not_lt.1 h)]
    refine ⟨fun hok => ?_, fun hok => ?_⟩
    · cases hok
    · omega

/-- **Indices are in the order of the bytes**, where they are defined: no two children share one. -/
theorem getIndex_lt {position' : BitVec 64} {k k' : ℕ} (hlt : position < position')
    (hpresent : n.isPresent position.toNat = true) (hk : n.getIndex position = .ok k)
    (hk' : n.getIndex position' = .ok k') : k < k' := by
  obtain ⟨-, rfl⟩ := getIndex_eq_ok_iff.1 hk
  obtain ⟨-, rfl⟩ := getIndex_eq_ok_iff.1 hk'
  exact Nat.count_strict_mono hpresent (BitVec.lt_def.1 hlt)

end Node

/-- **When the index is the rank**: for a position below 16, and for one from 80 up to 94. -/
theorem index_rank_iff (n : Node) (position : BitVec 64) :
    n.getIndex position = .ok (n.rank position.toNat) ↔
      position < 16 ∨ 80 ≤ position ∧ position < 95 := by
  rw [Node.getIndex_eq_ok_iff, and_iff_left rfl, BitVec.lt_def, BitVec.le_def, BitVec.lt_def]
  rfl

/-- The byte 16 of a node whose only child is that of the byte 0. -/
theorem index_sixteen :
    Node.getIndex ⟨#v[1, 0, 0, 0]⟩ 16 = .error .shift ∧ Node.rank ⟨#v[1, 0, 0, 0]⟩ 16 = 1 := by
  decide +kernel

end Trie

end Hittop
