/-
**Pools**: the calls in flight.

Calls of several threads are in flight together, in no order that matters.  One of them takes its
next step: it is replaced by what is left of it.  What the calls hold together changes by what this
one call holds.

Main definitions:

* `Pool.replace` — a call is replaced.

Main results:

* `Pool.count_replace`, `Pool.sum_replace` — what the calls hold, counted and weighed;
* `Pool.flatMap_replace`, `Pool.flatMap_eq_of_length_le` — and in order, where the call holds
  nothing or nothing else is held.
-/

import Mathlib.Algebra.BigOperators.Group.List.Basic
import Mathlib.Algebra.Ring.Nat
import Mathlib.Data.List.Basic
import Mathlib.Data.List.Perm.Basic
import Mathlib.Tactic.Common

set_option relaxedAutoImplicit false
set_option autoImplicit false

namespace Pool

variable {α β : Type} [DecidableEq α] {l ys : List α} {x y : α}

/-- `x` is replaced by `ys`. -/
def replace (l : List α) (x : α) (ys : List α) : List α := l.erase x ++ ys

theorem mem_or_of_mem_replace (h : y ∈ replace l x ys) : y ∈ l ∨ y ∈ ys :=
  (List.mem_append.1 h).imp_left List.mem_of_mem_erase

theorem mem_replace_of_mem_right (h : y ∈ ys) : y ∈ replace l x ys := List.mem_append_right _ h

theorem mem_replace_of_ne (h : y ∈ l) (hne : y ≠ x) : y ∈ replace l x ys :=
  List.mem_append_left _ ((List.mem_erase_of_ne hne).2 h)

theorem flatMap_perm (f : α → List β) (h : x ∈ l) :
    (l.flatMap f).Perm (f x ++ (l.erase x).flatMap f) :=
  (List.perm_cons_erase h).flatMap_right f

/-- What is held afterwards is what was held, without what the call held and with what is left of
it. -/
theorem count_replace [DecidableEq β] (f : α → List β) (ys : List α) (h : x ∈ l) (b : β) :
    ((replace l x ys).flatMap f).count b + (f x).count b =
      (l.flatMap f).count b + (ys.flatMap f).count b := by
  rw [(flatMap_perm f h).count_eq b, replace, List.flatMap_append, List.count_append,
    List.count_append]
  omega

/-- What the calls weigh together. -/
theorem sum_replace (w : α → ℕ) (ys : List α) (h : x ∈ l) :
    ((replace l x ys).map w).sum + w x = (l.map w).sum + (ys.map w).sum := by
  have hperm := ((List.perm_cons_erase h).map w).sum_eq
  rw [List.map_cons, List.sum_cons] at hperm
  rw [hperm, replace, List.map_append, List.sum_append]
  omega

/-- What is held once is held by one call. -/
theorem not_mem_of_count_le_one [DecidableEq β] {f : α → List β} {b : β} (h : x ∈ l) (hb : b ∈ f x)
    (hle : (l.flatMap f).count b ≤ 1) (hy : y ∈ l.erase x) : b ∉ f y := by
  intro hby
  rw [(flatMap_perm f h).count_eq b, List.count_append] at hle
  have hx := List.count_pos_iff.2 hb
  have hrest := List.count_pos_iff.2 (List.mem_flatMap.2 ⟨y, hy, hby⟩)
  omega

theorem flatMap_erase {f : α → List β} (hx : f x = []) : (l.erase x).flatMap f = l.flatMap f := by
  induction l with
  | nil => rfl
  | cons y l ih =>
      rcases eq_or_ne y x with rfl | hne
      · rw [List.erase_cons_head, List.flatMap_cons, hx, List.nil_append]
      · rw [List.erase_cons_tail (by simpa using hne), List.flatMap_cons, List.flatMap_cons, ih]

/-- A call that holds nothing may take something up, after everything else. -/
theorem flatMap_replace {f : α → List β} (hx : f x = []) :
    (replace l x ys).flatMap f = l.flatMap f ++ ys.flatMap f := by
  rw [replace, List.flatMap_append, flatMap_erase hx]

/-- A call that holds nothing goes on so. -/
theorem flatMap_replace_nil {f : α → List β} (hx : f x = []) (hys : ys.flatMap f = []) :
    (replace l x ys).flatMap f = l.flatMap f := by
  rw [flatMap_replace hx, hys, List.append_nil]

/-- A call that holds something, where only one thing is held. -/
theorem flatMap_eq_of_length_le {f : α → List β} (h : x ∈ l) (hle : (l.flatMap f).length ≤ 1)
    (hx : f x ≠ []) :
    l.flatMap f = f x ∧ (l.erase x).flatMap f = [] := by
  have hperm := flatMap_perm f h
  have hlen := hperm.length_eq
  have hpos := List.length_pos_iff.2 hx
  rw [List.length_append] at hlen
  have hnil : (l.erase x).flatMap f = [] := List.length_eq_zero_iff.1 (by omega)
  rw [hnil, List.append_nil] at hperm
  obtain ⟨b, hb⟩ : ∃ b, f x = [b] := List.length_eq_one_iff.1 (by omega)
  rw [hb] at hperm ⊢
  exact ⟨List.perm_singleton.1 hperm, hnil⟩

theorem flatMap_replace_of_length_le {f : α → List β} (h : x ∈ l)
    (hle : (l.flatMap f).length ≤ 1) (hx : f x ≠ []) :
    (replace l x ys).flatMap f = ys.flatMap f := by
  rw [replace, List.flatMap_append, (flatMap_eq_of_length_le h hle hx).2, List.nil_append]

end Pool
