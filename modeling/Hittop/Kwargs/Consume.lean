/-
**Consuming keyword arguments** (`kwargs/kwargs.h`).

The overloads of `Consume` have the parameters of those of `Get`, but the two that find a binding
name the type of `first.consume()` in their return types, and `consume` is not a `const` member.  So
the overload for `const KeywordBinding &` never takes part, and a binding that `Get` finds there is
one that `Consume` leaves out.  What is consumed is moved from.

Main definitions:

* `Hittop.Kwargs.Consume.all`, `Hittop.Kwargs.Consume.substitutes` — the overloads;
* `Hittop.Kwargs.KeywordBinding.consume` — the value, and what is left of the object;
* `Hittop.Kwargs.consume` — what a call of `Consume` returns, and the objects after it.

Main results:

* `Hittop.Kwargs.resolveConsume_rvalueRef`, `Hittop.Kwargs.resolveConsume_rest` — the overload that
  is called;
* `Hittop.Kwargs.consume_moves` — the binding that is consumed, and how that differs from `Get`.
-/

import Mathlib.Logic.Function.Basic
import Hittop.Kwargs.Get

set_option relaxedAutoImplicit false
set_option autoImplicit false

namespace Hittop

namespace Kwargs

open Overload

variable {τ β : Type}

/-! ### The overloads -/

namespace Consume

/-- The overloads, in the order of their declarations.  The parameters of each are those of the
overload of `Get` with this name. -/
def all : List Get := [.constRef, .rvalueRef, .rest, .empty]

/-- Whether `first.consume()` is an expression, where the return type names it: `consume` is no
`const` member. -/
def substitutes : Get → Bool
  | .constRef => false
  | .rvalueRef | .rest | .empty => true

/-- The overloads that can take part in a call. -/
def candidates : List Get := all.filter substitutes

end Consume

/-- The binding refers to an object of the store `s`, which is moved from where the type `Value`
has it so: `left` is what an optional leaves of the object it is made of. -/
def KeywordBinding.consume (left : τ → β → β) (b : KeywordBinding τ ℕ) (s : ℕ → β) :
    β × (ℕ → β) :=
  (s b.value_, Function.update s b.value_ (left b.valueType (s b.value_)))

variable [DecidableEq τ]

/-- The overload that `Consume(key, bindings...)` calls. -/
def resolveConsume {γ : Type} (key : Passed (KeywordArg τ))
    (bs : List (Passed (KeywordBinding τ γ))) : Option Get :=
  resolve Get.template Consume.candidates (keyArg key :: bs.map bindingArg)

/-- **What `Consume(key, bindings...)` returns**, and the store after it. -/
def consume (left : τ → β → β) (key : Passed (KeywordArg τ)) :
    List (Passed (KeywordBinding τ ℕ)) → (ℕ → β) → Option (Option β × (ℕ → β))
  | [], s =>
      match resolveConsume key ([] : List (Passed (KeywordBinding τ ℕ))) with
      | some .empty => some (none, s)
      | _ => none
  | b :: bs, s =>
      match resolveConsume key (b :: bs) with
      | some .empty => some (none, s)
      | some .constRef => some (some (b.object.consume left s).1, (b.object.consume left s).2)
      | some .rvalueRef => some (some (b.object.consume left s).1, (b.object.consume left s).2)
      | some .rest => consume left key.asConstRef bs s
      | none => none

/-- Is the binding an rvalue that is not `const`? -/
def isConsumable {γ : Type} (b : Passed (KeywordBinding τ γ)) : Bool := b.isRvalue && !b.isConst

section Resolution

variable {γ : Type} {key : Passed (KeywordArg τ)} {b : Passed (KeywordBinding τ γ)}
  {bs : List (Passed (KeywordBinding τ γ))}

theorem resolveConsume_nil :
    resolveConsume key ([] : List (Passed (KeywordBinding τ γ))) = some .empty := rfl

theorem mem_candidates {f : Get} : f ∈ Consume.candidates ↔ f ≠ .constRef := by
  cases f <;> simp [Consume.candidates, Consume.all, Consume.substitutes]

omit [DecidableEq τ] in
theorem isMatched_of_isConsumable (h : isConsumable b = true) : isMatched b = true := by
  obtain ⟨x, c, r⟩ := b
  cases c <;> cases r <;> first | rfl | cases h

/-- `KeywordBinding &&` is more specialized than `First &&`. -/
theorem resolveConsume_rvalueRef (htag : hasTag key.object b = true)
    (h : isConsumable b = true) : resolveConsume key (b :: bs) = some .rvalueRef := by
  refine resolve_eq_some_iff.2 ⟨mem_candidates.2 nofun, best_iff.2 ⟨?_, fun g hg hne hviable => ?_⟩⟩
  · rw [List.map_cons, viable_rvalueRef, htag]
    exact h
  · obtain ⟨x, c, r⟩ := b
    obtain ⟨rfl, rfl⟩ : r = true ∧ c = false := by simpa [isConsumable] using h
    cases g with
    | empty => cases hviable
    | rvalueRef => exact absurd rfl hne
    | constRef => exact absurd rfl (mem_candidates.1 hg)
    | rest =>
        rw [List.map_cons, better_cons (by decide) (by decide)]
        rfl

/-- Nothing else takes part but `First &&`. -/
theorem resolveConsume_rest (h : (hasTag key.object b && isConsumable b) = false) :
    resolveConsume key (b :: bs) = some .rest := by
  refine resolve_eq_some_iff.2 ⟨mem_candidates.2 nofun, best_iff.2 ⟨?_, fun g hg hne hviable => ?_⟩⟩
  · exact viable_rest _
  · cases g with
    | empty => cases hviable
    | rest => exact absurd rfl hne
    | constRef => exact absurd rfl (mem_candidates.1 hg)
    | rvalueRef =>
        rw [List.map_cons, viable_rvalueRef] at hviable
        rw [isConsumable, hviable] at h
        cases h

end Resolution

/-! ### What is consumed -/

variable {left : τ → β → β} {key : Passed (KeywordArg τ)} {b : Passed (KeywordBinding τ ℕ)}
  {bs : List (Passed (KeywordBinding τ ℕ))} {s : ℕ → β}

/-- The binding that `Consume` finds. -/
def consumed (key : KeywordArg τ) (bs : List (Passed (KeywordBinding τ ℕ))) :
    Option (KeywordBinding τ ℕ) :=
  (bs.find? fun b => hasTag key b && isConsumable b).map fun b => b.object

theorem consume_cons : consume left key (b :: bs) s =
    if hasTag key.object b && isConsumable b then
      some (some (s b.object.value_), (b.object.consume left s).2)
    else consume left key.asConstRef bs s := by
  cases h : hasTag key.object b && isConsumable b with
  | false =>
      rw [consume, resolveConsume_rest h]
      rfl
  | true =>
      obtain ⟨htag, hconsumable⟩ := (Bool.and_eq_true _ _).mp h
      rw [consume, resolveConsume_rvalueRef htag hconsumable]
      rfl

theorem consume_eq (key : Passed (KeywordArg τ)) (bs : List (Passed (KeywordBinding τ ℕ))) :
    consume left key bs s = some ((consumed key.object bs).map (fun b => s b.value_),
      ((consumed key.object bs).map fun b => (b.consume left s).2).getD s) := by
  induction bs generalizing key with
  | nil =>
      rw [consume, resolveConsume_nil]
      rfl
  | cons b bs ih =>
      rw [consume_cons, consumed, List.find?_cons]
      cases hasTag key.object b && isConsumable b with
      | false => exact ih key.asConstRef
      | true => rfl

/-- No binding of a pack that is passed by its name is consumed. -/
theorem consumed_byName (key : KeywordArg τ) (bs : List (Passed (KeywordBinding τ ℕ))) :
    consumed key (bs.map Passed.byName) = none := by
  rw [consumed, Option.map_eq_none_iff, List.find?_eq_none]
  intro b hb
  obtain ⟨c, -, rfl⟩ := List.mem_map.1 hb
  simp [isConsumable, Passed.byName]

theorem find?_consumable (key : KeywordArg τ) (bs : List (Passed (KeywordBinding τ ℕ))) :
    (bs.find? fun b => (hasTag key b && isMatched b) && isConsumable b) =
      bs.find? fun b => hasTag key b && isConsumable b := by
  congr 1
  funext b
  cases h : isConsumable b with
  | false => simp
  | true => simp [isMatched_of_isConsumable h]

/-- `Get` finds the object that is consumed where the binding it finds is not a `const` lvalue, or
the one that is consumed refers to the same object. -/
theorem get_eq_consumed_iff (key : Passed (KeywordArg τ))
    (bs : List (Passed (KeywordBinding τ ℕ))) :
    get key bs = some ((consumed key.object bs).map fun b => b.value_) ↔
      ∀ b, (bs.find? fun b => hasTag key.object b && isMatched b) = some b →
        isConsumable b = true ∨
          ∃ c, consumed key.object bs = some c ∧ c.value_ = b.object.value_ := by
  rw [get_eq_find, Option.some_inj]
  cases hfind : bs.find? fun b => hasTag key.object b && isMatched b with
  | none =>
      have hnone : consumed key.object bs = none := by
        rw [consumed, Option.map_eq_none_iff, ← find?_consumable, List.find?_eq_none]
        intro b hb h
        exact List.find?_eq_none.1 hfind b hb ((Bool.and_eq_true _ _).mp h).1
      simp [hnone]
  | some b =>
      constructor
      · rintro h _ ⟨⟩
        obtain ⟨c, hc, hvalue⟩ := Option.map_eq_some_iff.1 h.symm
        exact .inr ⟨c, hc, hvalue⟩
      · intro h
        obtain hconsumable | ⟨c, hc, hvalue⟩ := h b rfl
        · rw [consumed, ← find?_consumable, find?_and_of_find? hfind hconsumable]
          rfl
        · rw [hc]
          exact congrArg some hvalue.symm

/-- **What is consumed is the object of the first binding of the key that is passed as an rvalue
that is not `const`**, and no other object changes; nothing in a pack that is passed by its name is
consumed.  `Get` returns the same object unless it comes to a `const` lvalue first. -/
theorem consume_moves (left : τ → β → β) (key : Passed (KeywordArg τ))
    (bs : List (Passed (KeywordBinding τ ℕ))) (s : ℕ → β) :
    consume left key bs s = some ((consumed key.object bs).map (fun b => s b.value_),
        ((consumed key.object bs).map fun b => (b.consume left s).2).getD s) ∧
      consume left key (bs.map Passed.byName) s = some (none, s) ∧
      (get key bs = some ((consumed key.object bs).map fun b => b.value_) ↔
        ∀ b, (bs.find? fun b => hasTag key.object b && isMatched b) = some b →
          isConsumable b = true ∨
            ∃ c, consumed key.object bs = some c ∧ c.value_ = b.object.value_) := by
  refine ⟨consume_eq key bs, ?_, get_eq_consumed_iff key bs⟩
  rw [consume_eq, consumed_byName]
  rfl

/-- The binding of a pointer is consumed once; the second time there is what has been left. -/
example :
    let age : KeywordArg String := ⟨"age_t", "int"⟩
    let kwargs :=
      [⟨age.assign "unique_ptr" 0, true, false⟩, ⟨age.assign "unique_ptr" 1, false, true⟩]
    ((consume (fun _ _ => 0) ⟨age, false, false⟩ kwargs fun _ => 5).bind fun r =>
      (consume (fun _ _ => 0) ⟨age, false, false⟩ kwargs r.2).map fun r' => (r.1, r'.1)) =
        some (some 5, some 0) := by
  decide

end Kwargs

end Hittop
