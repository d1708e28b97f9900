/-
**Reference counters.**

An object with a counter is deleted by whoever gives up the last pointer to it.  The counter is a
parameter: nothing is known of it but what it does when a pointer is copied or given up.  As long as
a pointer is copied only where there is one, the count is the number of pointers that are held, the
object is there while there is one, and it is deleted once.

Main definitions:

* `RefCounter`, `RefCounter.Lawful` — a counter, and what is documented of it;
* `RefCounter.Holds` — so many pointers are held;
* `RefCounter.plain` — a number, with another one for the deletions.

Main results:

* `RefCounter.Holds.addRef`, `RefCounter.Holds.release` — the operations keep it.
-/

import Mathlib.Data.Nat.Notation
import Mathlib.Tactic.Common

set_option relaxedAutoImplicit false
set_option autoImplicit false

/-- The counter of an object whose states are `R`, as far as pointers to it go. -/
structure RefCounter (R : Type) where
  /-- A new object, with no pointer to it. -/
  initial : R
  useCount : R → ℕ
  /-- How often the object has been deleted. -/
  deletions : R → ℕ
  /-- A pointer is made or copied. -/
  addRef : R → R
  /-- A pointer is given up. -/
  release : R → R

namespace RefCounter

variable {R : Type} {N : RefCounter R} {r : R} {m n : ℕ}

/-- What is documented: the count goes up and down by one, and who brings it down to zero deletes
the object. -/
structure Lawful (N : RefCounter R) : Prop where
  useCount_initial : N.useCount N.initial = 0
  deletions_initial : N.deletions N.initial = 0
  useCount_addRef : ∀ r, N.useCount (N.addRef r) = N.useCount r + 1
  deletions_addRef : ∀ r, N.deletions (N.addRef r) = N.deletions r
  useCount_release : ∀ r, 0 < N.useCount r → N.useCount (N.release r) = N.useCount r - 1
  deletions_release_one : ∀ r, N.useCount r = 1 → N.deletions (N.release r) = N.deletions r + 1
  deletions_release : ∀ r, 1 < N.useCount r → N.deletions (N.release r) = N.deletions r

/-- `n` pointers are held; the object has been deleted if there are none, and only then. -/
structure Holds (N : RefCounter R) (r : R) (n : ℕ) : Prop where
  useCount : N.useCount r = n
  deletions : N.deletions r = if n = 0 then 1 else 0

theorem Holds.alive (h : N.Holds r n) (hn : 0 < n) : N.deletions r = 0 := by
  rw [h.deletions, if_neg (by omega)]

/-- The first pointer to a new object. -/
theorem Lawful.holds_one (hN : N.Lawful) : N.Holds (N.addRef N.initial) 1 where
  useCount := by rw [hN.useCount_addRef, hN.useCount_initial]
  deletions := by rw [hN.deletions_addRef, hN.deletions_initial, if_neg (by decide)]

theorem Holds.addRef (hN : N.Lawful) (h : N.Holds r n) (hn : 0 < n) (hm : m = n + 1) :
    N.Holds (N.addRef r) m where
  useCount := by rw [hN.useCount_addRef, h.useCount, hm]
  deletions := by rw [hN.deletions_addRef, h.alive hn, if_neg (by omega)]

theorem Holds.release (hN : N.Lawful) (h : N.Holds r n) (hn : n = m + 1) :
    N.Holds (N.release r) m where
  useCount := by
    rw [hN.useCount_release r (by rw [h.useCount]; omega), h.useCount, hn, Nat.add_sub_cancel]
  deletions := by
    have halive := h.alive (by omega)
    have hcount := h.useCount
    split_ifs with hm
    · rw [hN.deletions_release_one r (by omega), halive]
    · rw [hN.deletions_release r (by omega), halive]

theorem Holds.of_eq (h : N.Holds r n) (hm : m = n) : N.Holds r m := hm ▸ h

/-! ### A counter -/

/-- The count and the deletions. -/
def plain : RefCounter (ℕ × ℕ) where
  initial := (0, 0)
  useCount r := r.1
  deletions r := r.2
  addRef r := (r.1 + 1, r.2)
  release r := (r.1 - 1, if r.1 = 1 then r.2 + 1 else r.2)

theorem plain_lawful : plain.Lawful where
  useCount_initial := rfl
  deletions_initial := rfl
  useCount_addRef _ := rfl
  deletions_addRef _ := rfl
  useCount_release _ _ := rfl
  deletions_release_one _ h := if_pos h
  deletions_release _ h := if_neg (Nat.ne_of_gt h)

end RefCounter
