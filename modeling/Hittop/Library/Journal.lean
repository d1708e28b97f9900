/-
**Operations done twice.**

A program that is run again from the beginning does its first operations again.  This makes no
difference where each of them is of a kind with one that is still to come and that overwrites it,
and where those of different kinds have nothing to do with each other.  An operation that adds to
the state is not overwritten; what it adds can be counted.

Main definitions:

* `Journal` — operations with their kinds, and what they add to the state;
* `Journal.Lawful` — operations overwrite those of their kind and commute with the others;
* `Journal.Covered` — every operation is of a kind with one of a list.

Main results:

* `Journal.Lawful.perform_covered` — operations that add nothing may be done twice;
* `Journal.Lawful.not_adds_of_size` — and no others.
-/

import Mathlib.Algebra.Order.BigOperators.Group.List
import Mathlib.Algebra.Order.Ring.Nat
import Mathlib.Tactic.Common

set_option relaxedAutoImplicit false
set_option autoImplicit false

/-- Operations on a state, with their kinds. -/
structure Journal (ω ι σ : Type) where
  step : ω → σ → σ
  kind : ω → ι
  /-- How much an operation adds to the state. -/
  weight : ω → ℕ

namespace Journal

variable {ω ι σ : Type} (J : Journal ω ι σ) {o o' : ω} {prior prior' ops ops' : List ω} {st : σ}

/-- One operation after the other. -/
def perform (ops : List ω) (st : σ) : σ := ops.foldl (fun st o => J.step o st) st

@[simp] theorem perform_nil (st : σ) : J.perform [] st = st := rfl

@[simp] theorem perform_cons (o : ω) (ops : List ω) (st : σ) :
    J.perform (o :: ops) st = J.perform ops (J.step o st) := rfl

@[simp] theorem perform_append (ops ops' : List ω) (st : σ) :
    J.perform (ops ++ ops') st = J.perform ops' (J.perform ops st) := List.foldl_append

/-- Each operation is of a kind with one of the others. -/
def Covered (prior ops : List ω) : Prop := ∀ o ∈ prior, ∃ o' ∈ ops, J.kind o' = J.kind o

/-- Something is added to the state. -/
def Adds (ops : List ω) : Prop := ∃ o ∈ ops, J.weight o ≠ 0

namespace Covered

variable {J}

theorem refl (ops : List ω) : J.Covered ops ops := fun o ho => ⟨o, ho, rfl⟩

theorem nil : J.Covered [] ops := nofun

theorem append_right (h : J.Covered prior ops) (ops' : List ω) : J.Covered prior (ops ++ ops') := by
  intro o ho
  obtain ⟨o', ho', hkind⟩ := h o ho
  exact ⟨o', List.mem_append_left ops' ho', hkind⟩

theorem append (h : J.Covered prior ops) (h' : J.Covered prior' ops') :
    J.Covered (prior ++ prior') (ops ++ ops') := by
  intro o ho
  rcases List.mem_append.1 ho with ho | ho
  · exact h.append_right ops' o ho
  · obtain ⟨o', ho', hkind⟩ := h' o ho
    exact ⟨o', List.mem_append_right ops ho', hkind⟩

theorem cons (hkind : J.kind o = J.kind o') (h : J.Covered prior ops) :
    J.Covered (o :: prior) (o' :: ops) := by
  have hhead : J.Covered [o] [o'] := by
    intro a ha
    obtain rfl := List.mem_singleton.1 ha
    exact ⟨o', List.mem_singleton_self o', hkind.symm⟩
  exact hhead.append h

end Covered

@[simp] theorem adds_nil : ¬ J.Adds [] := by simp [Adds]

@[simp] theorem adds_cons : J.Adds (o :: ops) ↔ J.weight o ≠ 0 ∨ J.Adds ops := by simp [Adds]

@[simp] theorem adds_append : J.Adds (ops ++ ops') ↔ J.Adds ops ∨ J.Adds ops' := by
  simp only [Adds, List.mem_append, or_and_right, exists_or]

/-- Operations overwrite those of their kind that add nothing, and commute with the others; and
what they add is counted by `size`. -/
structure Lawful (size : σ → ℕ) : Prop where
  overwrite : ∀ o o' st, J.kind o = J.kind o' → J.weight o = 0 →
    J.step o' (J.step o st) = J.step o' st
  commute : ∀ o o' st, J.kind o ≠ J.kind o' → J.step o' (J.step o st) = J.step o (J.step o' st)
  size_step : ∀ o st, size (J.step o st) = size st + J.weight o

namespace Lawful

variable {J} {size : σ → ℕ} (h : J.Lawful size)
include h

/-- An operation that is overwritten later makes no difference. -/
theorem perform_step (ho : J.weight o = 0) (hops : ∃ o' ∈ ops, J.kind o' = J.kind o) (st : σ) :
    J.perform ops (J.step o st) = J.perform ops st := by
  induction ops generalizing st with
  | nil =>
      obtain ⟨o', ho', -⟩ := hops
      cases ho'
  | cons a ops ih =>
      rw [perform_cons, perform_cons]
      by_cases hkind : J.kind o = J.kind a
      · rw [h.overwrite o a st hkind ho]
      · -- the next operation is of another kind
        obtain ⟨o', ho', hkind'⟩ := hops
        have hrest : ∃ o' ∈ ops, J.kind o' = J.kind o := by
          rcases List.mem_cons.1 ho' with rfl | ho'
          · exact absurd hkind'.symm hkind
          · exact ⟨o', ho', hkind'⟩
        rw [h.commute o a st hkind, ih hrest]

/-- **Operations that add nothing** may be done before those that cover them. -/
theorem perform_covered (hadds : ¬ J.Adds prior) (hcovered : J.Covered prior ops) (st : σ) :
    J.perform ops (J.perform prior st) = J.perform ops st := by
  induction prior generalizing st with
  | nil => rfl
  | cons o prior ih =>
      rw [adds_cons, not_or, not_not] at hadds
      have hrest : J.Covered prior ops := fun o' ho' => hcovered o' (List.mem_cons_of_mem o ho')
      rw [perform_cons, ih hadds.2 hrest,
        h.perform_step hadds.1 (hcovered o List.mem_cons_self)]

theorem size_perform (ops : List ω) (st : σ) :
    size (J.perform ops st) = size st + (ops.map J.weight).sum := by
  induction ops generalizing st with
  | nil => rfl
  | cons o ops ih => rw [perform_cons, ih, h.size_step, List.map_cons, List.sum_cons, Nat.add_assoc]

/-- Where nothing more is counted, the operations done before add nothing. -/
theorem not_adds_of_size
    (hsize : size (J.perform ops (J.perform prior st)) = size (J.perform ops st)) :
    ¬ J.Adds prior := by
  rintro ⟨o, ho, hweight⟩
  rw [h.size_perform, h.size_perform, h.size_perform] at hsize
  have hle : J.weight o ≤ (prior.map J.weight).sum :=
    List.single_le_sum (by simp) _ (List.mem_map_of_mem ho)
  omega

end Lawful

end Journal
