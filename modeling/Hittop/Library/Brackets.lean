/-
**Brackets that close.**

A counter goes up at an opening bracket and down at a closing one.  A text is balanced where the
counter comes back to where it was and has not been lower on the way.

Main definitions:

* `Brackets.depth` — the counter after a text;
* `Brackets.Balanced` — a balanced text.

Main results:

* `Brackets.depth_append`, `Brackets.Balanced.enclosed` — how texts compose;
* `Brackets.exists_closing` — where the counter comes down, a bracket closes it.
-/

import Mathlib.Data.Option.Basic
import Mathlib.Data.List.Basic
import Mathlib.Tactic.Common

set_option relaxedAutoImplicit false
set_option autoImplicit false

namespace Brackets

variable {α : Type} [DecidableEq α]

/-- The counter after the text, from `d` on: none where it would go below zero. -/
def depth (opening closing : α) : ℕ → List α → Option ℕ
  | d, [] => some d
  | d, a :: x =>
      if a = opening then depth opening closing (d + 1) x
      else if a = closing then
        match d with
        | 0 => none
        | d + 1 => depth opening closing d x
      else depth opening closing d x

/-- Every bracket of the text closes in it. -/
def Balanced (opening closing : α) (x : List α) : Prop := depth opening closing 0 x = some 0

instance (opening closing : α) (x : List α) : Decidable (Balanced opening closing x) :=
  inferInstanceAs (Decidable (_ = _))

variable {opening closing : α} {d e : ℕ} {x y : List α} {a : α}

theorem depth_opening :
    depth opening closing d (opening :: x) = depth opening closing (d + 1) x := by
  simp [depth]

theorem depth_closing (h : closing ≠ opening) :
    depth opening closing (d + 1) (closing :: x) = depth opening closing d x := by
  simp [depth, h]

theorem depth_other (h : a ≠ opening) (h' : a ≠ closing) :
    depth opening closing d (a :: x) = depth opening closing d x := by
  simp [depth, h, h']

theorem depth_append : depth opening closing d (x ++ y) =
    (depth opening closing d x).bind fun e => depth opening closing e y := by
  induction x generalizing d with
  | nil => rfl
  | cons a x ih =>
      simp only [List.cons_append, depth]
      split_ifs
      · exact ih
      · cases d with
        | zero => rfl
        | succ d => exact ih
      · exact ih

/-- The counter goes the same way from higher up. -/
theorem depth_add (h : depth opening closing d x = some e) (k : ℕ) :
    depth opening closing (d + k) x = some (e + k) := by
  induction x generalizing d with
  | nil =>
      cases h
      rfl
  | cons a x ih =>
      simp only [depth] at h ⊢
      split_ifs at h ⊢ with hopen hclose
      · rw [Nat.add_right_comm]
        exact ih h
      · cases d with
        | zero => cases h
        | succ d =>
            rw [Nat.add_right_comm]
            exact ih h
      · exact ih h

theorem Balanced.depth_eq (h : Balanced opening closing x) (d : ℕ) :
    depth opening closing d x = some d := by
  have hadd := depth_add h d
  rwa [Nat.zero_add] at hadd

theorem Balanced.nil : Balanced opening closing ([] : List α) := rfl

theorem Balanced.append (hx : Balanced opening closing x) (hy : Balanced opening closing y) :
    Balanced opening closing (x ++ y) := by
  rw [Balanced, depth_append, hx.depth_eq]
  exact hy

/-- Other characters than brackets do not count. -/
theorem balanced_of_forall (h : ∀ a ∈ x, a ≠ opening ∧ a ≠ closing) :
    Balanced opening closing x := by
  induction x with
  | nil => exact .nil
  | cons a x ih =>
      obtain ⟨ho, hc⟩ := h a List.mem_cons_self
      rw [Balanced, depth_other ho hc]
      exact ih fun b hb => h b (List.mem_cons_of_mem a hb)

theorem Balanced.enclosed (hne : closing ≠ opening) (h : Balanced opening closing x) :
    Balanced opening closing (opening :: x ++ [closing]) := by
  rw [Balanced, List.cons_append, depth_opening, depth_append, h.depth_eq]
  exact depth_closing hne

/-- Where the counter comes down, there is the bracket that closes. -/
theorem exists_closing (hne : closing ≠ opening)
    (h : depth opening closing (d + 1) x = some e) (he : e ≤ d) :
    ∃ y z, x = y ++ closing :: z ∧ Balanced opening closing y ∧
      depth opening closing d z = some e := by
  induction hn : x.length using Nat.strongRecOn generalizing d x with
  | ind n ih =>
      cases x with
      | nil =>
          cases h
          omega
      | cons a x =>
          rw [List.length_cons] at hn
          by_cases hopen : a = opening
          · -- the bracket that opens here closes first, then the one before it
            subst hopen
            rw [depth_opening] at h
            obtain ⟨y, z, rfl, hy, hz⟩ := ih x.length (by omega) h (by omega) rfl
            rw [List.length_append, List.length_cons] at hn
            obtain ⟨y', z', rfl, hy', hz'⟩ := ih z.length (by omega) hz he rfl
            refine ⟨a :: y ++ closing :: y', z', by simp, ?_, hz'⟩
            rw [Balanced, List.cons_append, depth_opening, depth_append, hy.depth_eq]
            exact (depth_closing hne).trans hy'
          · by_cases hclose : a = closing
            · subst hclose
              rw [depth_closing hopen] at h
              exact ⟨[], x, rfl, .nil, h⟩
            · rw [depth_other hopen hclose] at h
              obtain ⟨y, z, rfl, hy, hz⟩ := ih x.length (by omega) h he rfl
              exact ⟨a :: y, z, rfl, by rwa [Balanced, depth_other hopen hclose], hz⟩

end Brackets
