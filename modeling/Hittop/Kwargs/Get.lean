/-
**Keyword arguments** (`kwargs/kwargs.h`).

`Get(key, bindings...)` is four overloads.  One returns the empty optional, two return the value of
their first binding, for a reference of either kind, and the fourth leaves its first binding out and
calls `Get` again with the others.  At every step of this recursion overload resolution chooses
among them anew, by the type of the first binding, by its constness and by its value category.

Main definitions:

* `Hittop.Kwargs.KeywordArg`, `Hittop.Kwargs.KeywordBinding` — keys and bindings;
* `Hittop.Kwargs.Get.template` — the declarations of the four overloads;
* `Hittop.Kwargs.get` — what a call of `Get` returns;
* `Hittop.Kwargs.firstBound` — the value of the first binding of the key.

Main results:

* `Hittop.Kwargs.resolveGet_constRef`, `Hittop.Kwargs.resolveGet_rvalueRef`,
  `Hittop.Kwargs.resolveGet_rest` — the overload that is called;
* `Hittop.Kwargs.get_eq_find` — the value returned is that of the first binding of the key that is
  passed as a `const` lvalue or as an rvalue that is not `const`;
* `Hittop.Kwargs.get_first_iff` — when that is the first binding of the key.
-/

import Hittop.Library.Overload

set_option relaxedAutoImplicit false
set_option autoImplicit false

namespace Hittop

namespace Kwargs

open Overload

variable {τ β : Type}

/-! ### Keys and bindings -/

/-- `KeywordArg<Tag, DefaultValue>`. -/
structure KeywordArg (τ : Type) where
  tag : τ
  defaultValue : τ
  deriving DecidableEq, Repr

/-- `KeywordBinding<Tag, Value>`. -/
structure KeywordBinding (τ β : Type) where
  tag : τ
  valueType : τ
  value_ : β
  deriving DecidableEq, Repr

/-- `KeywordBinding::get`. -/
def KeywordBinding.get (b : KeywordBinding τ β) : β := b.value_

/-- `KeywordArg::operator=`, for a value of the type `valueType`. -/
def KeywordArg.assign (key : KeywordArg τ) (valueType : τ) (value : β) : KeywordBinding τ β :=
  ⟨key.tag, valueType, value⟩

/-- An object and how it is passed. -/
structure Passed (γ : Type) where
  object : γ
  isConst : Bool
  isRvalue : Bool
  deriving DecidableEq, Repr

namespace Passed

variable {γ : Type}

/-- What a reference parameter bound to the argument is where it is named. -/
def byName (x : Passed γ) : Passed γ := { x with isRvalue := false }

/-- What a parameter `const T &` bound to the argument is where it is named. -/
def asConstRef (x : Passed γ) : Passed γ := ⟨x.object, true, false⟩

end Passed

/-! ### The overloads -/

/-- The class templates. -/
inductive ClassTemplate where
  | keywordArg
  | keywordBinding
  deriving DecidableEq, Repr

/-- The template parameters of the overloads; `First` and `Rest` are those of forwarding references.
-/
inductive TemplateParam where
  | tag
  | defaultValue
  | value
  deriving DecidableEq, Repr

/-- The overloads of `Get`. -/
inductive Get where
  /-- `Get(const KeywordArg<Tag, DefaultValue> &)` -/
  | empty
  /-- `Get(const KeywordArg<Tag, DefaultValue> &, const KeywordBinding<Tag, Value> &,
  Rest &&...)` -/
  | constRef
  /-- `Get(const KeywordArg<Tag, DefaultValue> &, KeywordBinding<Tag, Value> &&, Rest &&...)` -/
  | rvalueRef
  /-- `Get(const KeywordArg<Tag, DefaultValue> &, First &&, Rest &&...)` -/
  | rest
  deriving DecidableEq, Repr

namespace Get

/-- The overloads, in the order of their declarations. -/
def all : List Get := [empty, constRef, rvalueRef, rest]

/-- `const KeywordArg<Tag, DefaultValue> &`. -/
def keyParam : Param ClassTemplate TemplateParam :=
  .constRef ⟨.keywordArg, [.tag, .defaultValue]⟩

/-- `KeywordBinding<Tag, Value>`. -/
def bindingType : ClassType ClassTemplate TemplateParam := ⟨.keywordBinding, [.tag, .value]⟩

/-- The declarations. -/
def template : Get → Template ClassTemplate TemplateParam
  | empty => ⟨[keyParam], false⟩
  | constRef => ⟨[keyParam, .constRef bindingType], true⟩
  | rvalueRef => ⟨[keyParam, .rvalueRef bindingType], true⟩
  | rest => ⟨[keyParam, .forward], true⟩

end Get

/-- The key as an argument. -/
def keyArg (key : Passed (KeywordArg τ)) : Arg ClassTemplate τ :=
  ⟨⟨.keywordArg, [key.object.tag, key.object.defaultValue]⟩, key.isConst, key.isRvalue⟩

/-- A binding as an argument. -/
def bindingArg (b : Passed (KeywordBinding τ β)) : Arg ClassTemplate τ :=
  ⟨⟨.keywordBinding, [b.object.tag, b.object.valueType]⟩, b.isConst, b.isRvalue⟩

variable [DecidableEq τ]

/-- The overload that `Get(key, bindings...)` calls. -/
def resolveGet (key : Passed (KeywordArg τ)) (bs : List (Passed (KeywordBinding τ β))) :
    Option Get :=
  resolve Get.template Get.all (keyArg key :: bs.map bindingArg)

/-- **What `Get(key, bindings...)` returns**; the outer `none` is a call that is not well formed.
`std::forward` passes the other bindings on as they were passed, while the key is named. -/
def get (key : Passed (KeywordArg τ)) : List (Passed (KeywordBinding τ β)) → Option (Option β)
  | [] =>
      match resolveGet key ([] : List (Passed (KeywordBinding τ β))) with
      | some .empty => some none
      | _ => none
  | b :: bs =>
      match resolveGet key (b :: bs) with
      | some .empty => some none
      | some .constRef => some (some b.object.get)
      | some .rvalueRef => some (some b.object.get)
      | some .rest => get key.asConstRef bs
      | none => none

/-! ### Which overload is called -/

/-- Is the binding one of the key? -/
def hasTag (key : KeywordArg τ) (b : Passed (KeywordBinding τ β)) : Bool :=
  b.object.tag = key.tag

/-- Is the binding a `const` lvalue, or an rvalue that is not `const`? -/
def isMatched (b : Passed (KeywordBinding τ β)) : Bool := b.isConst != b.isRvalue

section Resolution

variable {key : Passed (KeywordArg τ)} {b : Passed (KeywordBinding τ β)}
  {bs : List (Passed (KeywordBinding τ β))}

theorem resolveGet_nil :
    resolveGet key ([] : List (Passed (KeywordBinding τ β))) = some .empty := rfl

/-- The tags of the key and of the binding are deduced for one name. -/
theorem deduceTypes_binding :
    (deduceTypes [Get.keyParam.type, some Get.bindingType]
      [some (keyArg key).type, some (bindingArg b).type] []).isSome = hasTag key.object b := by
  have h : deduceTypes [Get.keyParam.type, some Get.bindingType]
      [some (keyArg key).type, some (bindingArg b).type] [] =
      (if key.object.tag = b.object.tag then
        some [(.value, b.object.valueType), (.defaultValue, key.object.defaultValue),
          (.tag, key.object.tag)]
      else none).bind (deduceTypes [] []) := rfl
  rw [h, hasTag]
  by_cases htag : key.object.tag = b.object.tag
  · simp [htag, deduceTypes]
  · simp [htag, Ne.symm htag]

theorem length_params {f : Get} (hf : f ≠ .empty) : f.template.params.length = 2 := by
  cases f with
  | empty => exact absurd rfl hf
  | constRef | rvalueRef | rest => rfl

theorem pack_template {f : Get} (hf : f ≠ .empty) : f.template.pack = true := by
  cases f with
  | empty => exact absurd rfl hf
  | constRef | rvalueRef | rest => rfl

theorem viable_cons {f : Get} (hf : f ≠ .empty) (as : List (Arg ClassTemplate τ)) :
    viable f.template (keyArg key :: bindingArg b :: as) =
      viable f.template.fixed [keyArg key, bindingArg b] := by
  show viable f.template ([keyArg key, bindingArg b] ++ as) = _
  exact viable_append (pack_template hf) (length_params hf).symm

omit [DecidableEq τ] in
theorem better_cons {f g : Get} (hf : f ≠ .empty) (hg : g ≠ .empty)
    (as : List (Arg ClassTemplate τ)) :
    better (keyArg key :: bindingArg b :: as) f.template g.template =
      better [keyArg key, bindingArg b] f.template.fixed g.template.fixed := by
  show better ([keyArg key, bindingArg b] ++ as) f.template g.template = _
  exact better_append (pack_template hf) (pack_template hg) (length_params hf).symm
    (length_params hg).symm

theorem viable_constRef (as : List (Arg ClassTemplate τ)) :
    viable (Get.template .constRef) (keyArg key :: bindingArg b :: as) = hasTag key.object b := by
  rw [viable_cons (by decide), ← deduceTypes_binding]
  exact Bool.and_true _

theorem viable_rvalueRef (as : List (Arg ClassTemplate τ)) :
    viable (Get.template .rvalueRef) (keyArg key :: bindingArg b :: as) =
      (hasTag key.object b && (b.isRvalue && !b.isConst)) := by
  rw [viable_cons (by decide), ← deduceTypes_binding]
  show (_ && (true && ((b.isRvalue && !b.isConst) && true))) = _
  rw [Bool.true_and, Bool.and_true]
  rfl

theorem viable_rest (as : List (Arg ClassTemplate τ)) :
    viable (Get.template .rest) (keyArg key :: bindingArg b :: as) = true := by
  rw [viable_cons (by decide)]
  rfl

theorem mem_all (f : Get) : f ∈ Get.all := by cases f <;> simp [Get.all]

/-- A `const` lvalue converts alike for `const KeywordBinding &` and for `First &&`, and the first
of them is more specialized. -/
theorem resolveGet_constRef (htag : hasTag key.object b = true) (hconst : b.isConst = true)
    (hlvalue : b.isRvalue = false) : resolveGet key (b :: bs) = some .constRef := by
  refine resolve_eq_some_iff.2 ⟨mem_all _, best_iff.2 ⟨?_, fun g _ hne hviable => ?_⟩⟩
  · exact (viable_constRef _).trans htag
  · cases g with
    | empty => cases hviable
    | constRef => exact absurd rfl hne
    | rvalueRef =>
        rw [List.map_cons, viable_rvalueRef, hlvalue] at hviable
        simp at hviable
    | rest =>
        rw [List.map_cons, better_cons (by decide) (by decide)]
        obtain ⟨x, c, r⟩ := b
        obtain rfl : c = true := hconst
        obtain rfl : r = false := hlvalue
        rfl

/-- An rvalue that is not `const` converts best for an rvalue reference, and `KeywordBinding &&` is
more specialized than `First &&`. -/
theorem resolveGet_rvalueRef (htag : hasTag key.object b = true) (hconst : b.isConst = false)
    (hrvalue : b.isRvalue = true) : resolveGet key (b :: bs) = some .rvalueRef := by
  refine resolve_eq_some_iff.2 ⟨mem_all _, best_iff.2 ⟨?_, fun g _ hne hviable => ?_⟩⟩
  · rw [List.map_cons, viable_rvalueRef, htag, hconst, hrvalue]
    rfl
  · obtain ⟨x, c, r⟩ := b
    obtain rfl : c = false := hconst
    obtain rfl : r = true := hrvalue
    cases g with
    | empty => cases hviable
    | rvalueRef => exact absurd rfl hne
    | constRef | rest =>
        rw [List.map_cons, better_cons (by decide) (by decide)]
        rfl

/-- For an lvalue that is not `const` only `First &&` adds no `const`, and for a `const` rvalue only
`First &&` is an rvalue reference. -/
theorem resolveGet_rest (h : (hasTag key.object b && isMatched b) = false) :
    resolveGet key (b :: bs) = some .rest := by
  refine resolve_eq_some_iff.2 ⟨mem_all _, best_iff.2 ⟨?_, fun g _ hne hviable => ?_⟩⟩
  · exact viable_rest _
  · cases g with
    | empty => cases hviable
    | rest => exact absurd rfl hne
    | constRef =>
        rw [List.map_cons, viable_constRef] at hviable
        rw [hviable, Bool.true_and] at h
        rw [List.map_cons, better_cons (by decide) (by decide)]
        obtain ⟨x, _ | _, _ | _⟩ := b
        · rfl
        · cases h
        · cases h
        · rfl
    | rvalueRef =>
        rw [List.map_cons, viable_rvalueRef] at hviable
        simp only [Bool.and_eq_true, Bool.not_eq_true'] at hviable
        simp [hviable, isMatched] at h

end Resolution

/-! ### What is returned -/

section Found

variable {key : Passed (KeywordArg τ)} {b : Passed (KeywordBinding τ β)}
  {bs : List (Passed (KeywordBinding τ β))}

theorem get_nil : get key ([] : List (Passed (KeywordBinding τ β))) = some none := by
  rw [get, resolveGet_nil]

theorem get_cons : get key (b :: bs) =
    if hasTag key.object b && isMatched b then some (some b.object.get)
    else get key.asConstRef bs := by
  cases h : hasTag key.object b && isMatched b with
  | false =>
      rw [get, resolveGet_rest h]
      rfl
  | true =>
      obtain ⟨htag, hmatched⟩ := (Bool.and_eq_true _ _).mp h
      rw [get]
      cases hrvalue : b.isRvalue with
      | false =>
          rw [isMatched, hrvalue] at hmatched
          rw [resolveGet_constRef htag (by simpa using hmatched) hrvalue]
          rfl
      | true =>
          rw [isMatched, hrvalue] at hmatched
          rw [resolveGet_rvalueRef htag (by simpa using hmatched) hrvalue]
          rfl

/-- **The binding that is found is the first one of the key that is passed as a `const` lvalue or as
an rvalue that is not `const`.**  Every call is well formed. -/
theorem get_eq_find (key : Passed (KeywordArg τ)) (bs : List (Passed (KeywordBinding τ β))) :
    get key bs = some ((bs.find? fun b => hasTag key.object b && isMatched b).map
      fun b => b.object.get) := by
  induction bs generalizing key with
  | nil => exact get_nil
  | cons b bs ih =>
      rw [get_cons, List.find?_cons]
      cases hasTag key.object b && isMatched b with
      | false => exact ih key.asConstRef
      | true => rfl

end Found

/-! ### The first binding of the key -/

/-- The value of the first binding of the key. -/
def firstBound (key : KeywordArg τ) (bs : List (Passed (KeywordBinding τ β))) : Option β :=
  (bs.find? (hasTag key)).map fun b => b.object.value_

/-- The first binding of the key is passed as a `const` lvalue or as an rvalue that is not `const`,
or the first one passed so has the same value. -/
def FirstMatched (key : KeywordArg τ) (bs : List (Passed (KeywordBinding τ β))) : Prop :=
  ∀ b, bs.find? (hasTag key) = some b → isMatched b = true ∨
    ∃ c, (bs.find? fun b => hasTag key b && isMatched b) = some c ∧
      c.object.value_ = b.object.value_

theorem find?_and_of_find? {γ : Type} {p q : γ → Bool} {xs : List γ} {x : γ}
    (h : xs.find? p = some x) (hq : q x = true) : (xs.find? fun y => p y && q y) = some x := by
  obtain ⟨hp, ys, zs, rfl, hys⟩ := List.find?_eq_some_iff_append.1 h
  refine List.find?_eq_some_iff_append.2 ⟨?_, ys, zs, rfl, fun y hy => ?_⟩
  · rw [hp, hq]
    rfl
  · have hy := hys y hy
    simp only [Bool.not_eq_true'] at hy
    rw [hy]
    rfl

theorem get_eq_firstBound_iff (key : Passed (KeywordArg τ))
    (bs : List (Passed (KeywordBinding τ β))) :
    get key bs = some (firstBound key.object bs) ↔ FirstMatched key.object bs := by
  rw [get_eq_find, Option.some_inj, firstBound, FirstMatched]
  cases hfirst : bs.find? (hasTag key.object) with
  | none =>
      have hnone : (bs.find? fun b => hasTag key.object b && isMatched b) = none :=
        List.find?_eq_none.2 fun b hb h =>
          List.find?_eq_none.1 hfirst b hb ((Bool.and_eq_true _ _).mp h).1
      simp [hnone]
  | some b =>
      constructor
      · rintro h _ ⟨⟩
        obtain ⟨c, hc, hvalue⟩ := Option.map_eq_some_iff.1 h
        exact .inr ⟨c, hc, hvalue⟩
      · intro h
        obtain hmatched | ⟨c, hc, hvalue⟩ := h b rfl
        · rw [find?_and_of_find? hfirst hmatched]
          rfl
        · rw [hc]
          exact congrArg some hvalue

theorem firstBound_byName (key : KeywordArg τ) (bs : List (Passed (KeywordBinding τ β))) :
    firstBound key (bs.map Passed.byName) = firstBound key bs := by
  rw [firstBound, firstBound, List.find?_map, Option.map_map]
  rfl

/-- **When `Get` returns the value of the first binding of its key**, and when it returns the same
for the bindings of a pack `kwargs...`, which are lvalues. -/
theorem get_first_iff (key : Passed (KeywordArg τ)) (bs : List (Passed (KeywordBinding τ β))) :
    (get key bs = some (firstBound key.object bs) ↔ FirstMatched key.object bs) ∧
      (get key bs = some (firstBound key.object bs) ∧
          get key (bs.map Passed.byName) = get key bs ↔
        FirstMatched key.object bs ∧ FirstMatched key.object (bs.map Passed.byName)) := by
  refine ⟨get_eq_firstBound_iff key bs, ?_⟩
  rw [← get_eq_firstBound_iff, ← get_eq_firstBound_iff, firstBound_byName]
  exact and_congr_right fun h => by rw [h]

/-- `age = 30` is found where it is passed, and not where a pack that holds it is. -/
theorem get_misses_first :
    let age : KeywordArg String := ⟨"age_t", "int"⟩
    let kwargs := [⟨age.assign "int" 30, false, true⟩]
    get ⟨age, false, false⟩ kwargs = some (some 30) ∧
      get ⟨age, false, false⟩ (kwargs.map Passed.byName) = some none ∧
        firstBound age (kwargs.map Passed.byName) = some 30 := by
  decide

end Kwargs

end Hittop
