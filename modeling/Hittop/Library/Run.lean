/-
**Runs of a guarded step function.**

A component whose operations have preconditions is a step function that is defined where the
precondition of the operation holds.  A run is a list of operations carried out one after the other;
it is defined as long as every operation is.

Main definitions:

* `Run.run` — the state after a list of operations;
* `Run.Reachable` — the states after some list of operations.

Main results:

* `Run.run_append` — runs are put together;
* `Run.run_invariant`, `Run.Reachable.invariant` — what every operation keeps holds at the end;
* `Run.run_refines` — a map under which operations are operations of another system takes runs to
  runs.
-/

import Mathlib.Data.List.Basic
import Mathlib.Tactic.Common

set_option relaxedAutoImplicit false
set_option autoImplicit false

namespace Run

variable {σ τ α β : Type} {step : σ → α → Option σ} {s s' s'' : σ} {a : α} {as bs : List α}

/-- The operations `as` are carried out in order. -/
def run (step : σ → α → Option σ) : σ → List α → Option σ
  | s, [] => some s
  | s, a :: as => (step s a).bind fun s' => run step s' as

@[simp] theorem run_nil : run step s [] = some s := rfl

theorem run_cons : run step s (a :: as) = (step s a).bind fun s' => run step s' as := rfl

theorem run_cons_of_step (h : step s a = some s') : run step s (a :: as) = run step s' as := by
  rw [run_cons, h, Option.bind_some]

theorem run_append : run step s (as ++ bs) = (run step s as).bind fun s' => run step s' bs := by
  induction as generalizing s with
  | nil => rfl
  | cons a as ih =>
      rw [List.cons_append, run_cons, run_cons, Option.bind_assoc]
      congr 1
      funext s'
      exact ih

theorem run_append_of_eq_some (h : run step s as = some s') :
    run step s (as ++ bs) = run step s' bs := by
  rw [run_append, h, Option.bind_some]

/-! ### Invariants -/

/-- Every operation of a run meets the condition `P` in the state before it. -/
def Along (step : σ → α → Option σ) (P : σ → α → Prop) : σ → List α → Prop
  | _, [] => True
  | s, a :: as => P s a ∧ ∀ s', step s a = some s' → Along step P s' as

instance Along.decidable {P : σ → α → Prop} [∀ s a, Decidable (P s a)] :
    ∀ (s : σ) (as : List α), Decidable (Along step P s as)
  | _, [] => .isTrue trivial
  | s, a :: as =>
      match h : step s a with
      | none => decidable_of_iff (P s a) (by simp [Along, h])
      | some s' =>
          have : Decidable (Along step P s' as) := Along.decidable s' as
          decidable_of_iff (P s a ∧ Along step P s' as) (by simp [Along, h])

theorem along_of_forall {P : σ → α → Prop} (h : ∀ a ∈ as, ∀ s, P s a) : Along step P s as := by
  induction as generalizing s with
  | nil => trivial
  | cons a as ih =>
      refine ⟨h a List.mem_cons_self s, fun s' _ => ih fun b hb => ?_⟩
      exact h b (List.mem_cons_of_mem _ hb)

/-- What every operation that meets a condition keeps is kept by a run whose operations meet it. -/
theorem run_invariant_along {P : σ → α → Prop} {I : σ → Prop}
    (hstep : ∀ s a s', I s → P s a → step s a = some s' → I s')
    (hP : Along step P s as) (h : run step s as = some s') (hs : I s) : I s' := by
  induction as generalizing s with
  | nil =>
      obtain rfl : s = s' := by simpa using h
      exact hs
  | cons a as ih =>
      obtain ⟨m, hm, h⟩ := Option.bind_eq_some_iff.1 h
      exact ih (hP.2 m hm) h (hstep s a m hs hP.1 hm)

/-- What every operation keeps is kept by a run. -/
theorem run_invariant {I : σ → Prop} (hstep : ∀ s a s', I s → step s a = some s' → I s')
    (h : run step s as = some s') (hs : I s) : I s' :=
  run_invariant_along (P := fun _ _ => True) (fun s a s' hs _ => hstep s a s' hs)
    (along_of_forall fun _ _ _ => trivial) h hs

/-- A map to another system under which every operation is one of that system. -/
theorem run_refines {step' : τ → β → Option τ} {f : σ → τ} {g : α → β}
    (hstep : ∀ s a s', step s a = some s' → step' (f s) (g a) = some (f s'))
    (h : run step s as = some s') : run step' (f s) (as.map g) = some (f s') := by
  induction as generalizing s with
  | nil =>
      obtain rfl : s = s' := by simpa using h
      rfl
  | cons a as ih =>
      obtain ⟨m, hm, h⟩ := Option.bind_eq_some_iff.1 h
      rw [List.map_cons, run_cons_of_step (hstep s a m hm)]
      exact ih h

/-! ### Reachable states -/

/-- `s'` is the state after some operations from `s`. -/
def Reachable (step : σ → α → Option σ) (s s' : σ) : Prop := ∃ as, run step s as = some s'

theorem Reachable.refl : Reachable step s s := ⟨[], rfl⟩

theorem Reachable.trans (h : Reachable step s s') (h' : Reachable step s' s'') :
    Reachable step s s'' := by
  obtain ⟨as, h⟩ := h
  obtain ⟨bs, h'⟩ := h'
  exact ⟨as ++ bs, by rw [run_append_of_eq_some h, h']⟩

theorem Reachable.single (h : step s a = some s') : Reachable step s s' :=
  ⟨[a], by rw [run_cons_of_step h, run_nil]⟩

theorem Reachable.tail (h : Reachable step s s') (h' : step s' a = some s'') :
    Reachable step s s'' := h.trans (.single h')

theorem Reachable.invariant {I : σ → Prop}
    (hstep : ∀ s a s', I s → step s a = some s' → I s') (h : Reachable step s s')
    (hs : I s) : I s' := by
  obtain ⟨as, h⟩ := h
  exact run_invariant hstep h hs

end Run
