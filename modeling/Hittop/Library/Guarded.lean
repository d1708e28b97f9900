/-
**Guarded recursion over lists.**

A function on lists that is described in terms of itself is determined by the description if it only
refers to shorter lists.  Two functions that satisfy such a description agree on the lists of length
`0`, of length `1`, and so on; and a recognizer that satisfies it is found by unfolding the
description as often as the list is long.

Main definitions:

* `AgreeTo` — agreement on the lists of less than a certain length;
* `Guarded` — a description that refers to shorter lists only;
* `Recognizer.fix` — the recognizer that is described.

Main results:

* `Guarded.unique` — a guarded description has at most one solution;
* `Recognizer.fix_eq` — and one that is a recognizer.
-/

import Hittop.Library.Recognizer

set_option relaxedAutoImplicit false
set_option autoImplicit false

variable {α β γ : Type} {n : ℕ}

/-- The functions agree on the lists with less than `n` elements. -/
def AgreeTo (n : ℕ) (f g : List α → β) : Prop := ∀ s, s.length < n → f s = g s

namespace AgreeTo

variable {f g : List α → β}

theorem zero : AgreeTo 0 f g := fun s hs => absurd hs (Nat.not_lt_zero s.length)

theorem refl : AgreeTo n f f := fun _ _ => rfl

theorem mono {m : ℕ} (h : AgreeTo n f g) (hle : m ≤ n) : AgreeTo m f g :=
  fun s hs => h s (Nat.lt_of_lt_of_le hs hle)

theorem ext (h : ∀ n, AgreeTo n f g) : f = g :=
  funext fun s => h (s.length + 1) s (Nat.lt_succ_self _)

end AgreeTo

/-- What the description says of a list depends on shorter lists only. -/
def Guarded (F : (List α → β) → List α → γ) : Prop :=
  ∀ n f g, AgreeTo n f g → AgreeTo (n + 1) (F f) (F g)

/-- **A guarded description has at most one solution.** -/
theorem Guarded.unique {F : (List α → β) → List α → β} (hF : Guarded F) {f g : List α → β}
    (hf : f = F f) (hg : g = F g) : f = g := by
  refine AgreeTo.ext fun n => ?_
  induction n with
  | zero => exact .zero
  | succ n ih =>
      rw [hf, hg]
      exact hF n f g ih

/-- The description, unfolded `n` times around `base`. -/
def unfolding (F : (List α → β) → List α → β) (base : List α → β) : ℕ → List α → β
  | 0 => base
  | n + 1 => F (unfolding F base n)

/-- The unfoldings approximate the solution. -/
theorem Guarded.approximates {F : (List α → β) → List α → β} (hF : Guarded F) {f base : List α → β}
    (hf : f = F f) (n : ℕ) : AgreeTo n (unfolding F base n) f := by
  induction n with
  | zero => exact .zero
  | succ n ih =>
      rw [hf]
      exact hF n _ _ ih

namespace Recognizer

open Verdict

/-- Asks for more, always. -/
def pending : Recognizer α where
  run _ := incomplete
  bounded s n h := by cases h

variable {F : Recognizer α → Recognizer α}

/-- The description, unfolded `n` times. -/
def unfolded (F : Recognizer α → Recognizer α) : ℕ → Recognizer α
  | 0 => pending
  | n + 1 => F (unfolded F n)

/-- The recognizer that is described. -/
def fix (F : Recognizer α → Recognizer α) : Recognizer α where
  run s := unfolded F (s.length + 1) s
  bounded s n h := (unfolded F (s.length + 1)).bounded s n h

/-- The description of a recognizer refers to shorter lists only. -/
def GuardedBy (F : Recognizer α → Recognizer α) : Prop :=
  ∀ n f g, AgreeTo n f.run g.run → AgreeTo (n + 1) (F f).run (F g).run

theorem unfolded_agree (hF : GuardedBy F) {m : ℕ} (h : n ≤ m) :
    AgreeTo n (unfolded F n).run (unfolded F m).run := by
  induction n generalizing m with
  | zero => exact .zero
  | succ n ih =>
      obtain ⟨m, rfl⟩ : ∃ k, m = k + 1 := ⟨m - 1, by omega⟩
      exact hF n _ _ (ih (by omega))

theorem unfolded_agree_fix (hF : GuardedBy F) : AgreeTo n (unfolded F n).run (fix F).run := by
  intro s hs
  exact (unfolded_agree hF (show s.length + 1 ≤ n from hs) s (Nat.lt_succ_self _)).symm

/-- **The equation of a guarded recognizer.** -/
theorem fix_eq (hF : GuardedBy F) : fix F = F (fix F) := by
  ext s
  exact hF s.length _ _ (unfolded_agree_fix hF) s (Nat.lt_succ_self _)

end Recognizer
