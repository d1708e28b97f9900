/-
**Rank in a set of bits.**

The rank of a position is the number of set bits below it.  For a set kept in machine words it is
the population counts of the words before that of the position, and that of the bits below the
position in its own word, which a mask selects.

Main definitions:

* `Rank.lowMask` — the mask of the `a` lowest bits;
* `Rank.has` — the bits of a sequence of words.

Main results:

* `Rank.cpop_eq_count` — the population count counts bits;
* `Rank.cpop_and_lowMask` — and with a mask, those below a position;
* `Rank.count_has` — rank from the population counts of words.
-/

import Mathlib.Algebra.BigOperators.Group.List.Basic
import Mathlib.Algebra.Ring.Nat
import Mathlib.Data.Nat.Count
import Mathlib.Tactic.Common

set_option relaxedAutoImplicit false
set_option autoImplicit false

namespace Rank

variable {w : ℕ}

/-- The `a` lowest bits. -/
def lowMask (w a : ℕ) : BitVec w := BitVec.ofNat w (2 ^ a - 1)

theorem getLsbD_lowMask (a i : ℕ) :
    (lowMask w a).getLsbD i = (decide (i < w) && decide (i < a)) := by
  rw [lowMask, BitVec.getLsbD_ofNat, Nat.testBit_two_pow_sub_one]

theorem count_congr {p q : ℕ → Prop} [DecidablePred p] [DecidablePred q] {n : ℕ}
    (h : ∀ i < n, p i ↔ q i) : Nat.count p n = Nat.count q n :=
  Nat.le_antisymm (Nat.count_mono_left fun i hi => (h i hi).1)
    (Nat.count_mono_left fun i hi => (h i hi).2)

theorem cpopNatRec_eq_count (x : BitVec w) (n : ℕ) :
    x.cpopNatRec n 0 = Nat.count (fun i => x.getLsbD i = true) n := by
  induction n with
  | zero => rfl
  | succ n ih =>
      rw [BitVec.cpopNatRec_succ, BitVec.cpopNatRec_eq, ih, Nat.count_succ, Nat.zero_add]
      cases x.getLsbD n <;> rfl

/-- The population count is the number of set bits. -/
theorem cpop_eq_count (x : BitVec w) :
    x.cpop.toNat = Nat.count (fun i => x.getLsbD i = true) w := by
  rw [BitVec.toNat_cpop, cpopNatRec_eq_count]

/-- Under the mask of the `a` lowest bits, the population count is the rank of `a`. -/
theorem cpop_and_lowMask (x : BitVec w) {a : ℕ} (ha : a ≤ w) :
    (x &&& lowMask w a).cpop.toNat = Nat.count (fun i => x.getLsbD i = true) a := by
  obtain ⟨b, rfl⟩ := Nat.exists_eq_add_of_le ha
  have hbelow : ∀ i < a, (x &&& lowMask (a + b) a).getLsbD i = true ↔ x.getLsbD i = true := by
    intro i hi
    have hw : i < a + b := by omega
    simp [getLsbD_lowMask, hi, hw]
  have habove : ∀ i < b, ¬ (x &&& lowMask (a + b) a).getLsbD (a + i) = true := by
    intro i _
    simp [getLsbD_lowMask]
  rw [cpop_eq_count, Nat.count_add, count_congr hbelow, Nat.count_iff_forall_not.2 habove,
    Nat.add_zero]

/-- The bits of a sequence of words, in order. -/
def has (ws : ℕ → BitVec w) (i : ℕ) : Bool := (ws (i / w)).getLsbD (i % w)

theorem has_add (ws : ℕ → BitVec w) (k : ℕ) {i : ℕ} (hi : i < w) :
    has ws (w * k + i) = (ws k).getLsbD i := by
  have hw : 0 < w := by omega
  rw [has, Nat.mul_add_div hw, Nat.mul_add_mod, Nat.div_eq_of_lt hi, Nat.mod_eq_of_lt hi,
    Nat.add_zero]

theorem count_has_add (ws : ℕ → BitVec w) (k : ℕ) {a : ℕ} (ha : a ≤ w) :
    Nat.count (fun i => has ws i = true) (w * k + a) =
      Nat.count (fun i => has ws i = true) (w * k) +
        Nat.count (fun i => (ws k).getLsbD i = true) a := by
  rw [Nat.count_add]
  congr 1
  refine count_congr fun i hi => ?_
  rw [has_add ws k (by omega)]

/-- **Rank, from the population counts of the words before and of the masked word.** -/
theorem count_has (ws : ℕ → BitVec w) (k : ℕ) {a : ℕ} (ha : a ≤ w) :
    Nat.count (fun i => has ws i = true) (w * k + a) =
      ((List.range k).map fun j => (ws j).cpop.toNat).sum + (ws k &&& lowMask w a).cpop.toNat := by
  have hwords : Nat.count (fun i => has ws i = true) (w * k) =
      ((List.range k).map fun j => (ws j).cpop.toNat).sum := by
    induction k with
    | zero => rfl
    | succ k ih =>
        rw [Nat.mul_succ, count_has_add ws k le_rfl, ih, ← cpop_eq_count, List.range_succ,
          List.map_append, List.sum_append]
        rfl
  rw [count_has_add ws k ha, hwords, cpop_and_lowMask _ ha]

end Rank
