/-
**Overload resolution among function templates.**

A call is made with a list of arguments, each with a type, a constness and a value category, and
the templates a name stands for compete for it.  A template takes part when its template parameters
can be deduced and its references bind.  Among those that take part the one is called that is better
than every other: no argument goes worse and one goes better, or none goes better and the template
is more specialized.  Where there is no such template the call is not well formed.

The parameters are `const C<..> &`, `C<..> &&` and the forwarding reference `T &&`, where a `T` of
this kind occurs nowhere else, and a trailing pack `Rest &&...` counts as its expansion.  The
tie-breaker of partial ordering between the two kinds of reference has no part in this: where one
template has `const C<..> &` and the other `C<..> &&`, the conversion of that argument decides.

Main definitions:

* `Overload.Arg`, `Overload.Param`, `Overload.Template` — arguments, parameters and templates;
* `Overload.deduceTypes` — template argument deduction;
* `Overload.Ref.better`, `Overload.moreSpecialized` — the order of conversions, partial ordering;
* `Overload.resolve` — the template that is called.

Main results:

* `Overload.better_asymm` — of two templates at most one is better;
* `Overload.resolve_eq_some_iff` — the template called is the one that is best;
* `Overload.viable_append`, `Overload.better_append` — what a pack takes decides nothing.
-/

import Mathlib.Data.List.Basic
import Mathlib.Tactic.Common

set_option relaxedAutoImplicit false
set_option autoImplicit false

namespace Overload

variable {κ ν α ι : Type}

/-! ### Arguments and parameters -/

/-- The class template `template` with the template arguments `args`. -/
structure ClassType (κ α : Type) where
  template : κ
  args : List α
  deriving DecidableEq, Repr

/-- An argument of a call, an expression. -/
structure Arg (κ α : Type) where
  type : ClassType κ α
  isConst : Bool
  isRvalue : Bool
  deriving DecidableEq, Repr

/-- A parameter of a function template, over the names `ν` of its template parameters. -/
inductive Param (κ ν : Type) where
  /-- `const C<..> &` -/
  | constRef (type : ClassType κ ν)
  /-- `C<..> &&` -/
  | rvalueRef (type : ClassType κ ν)
  /-- `T &&`, with a `T` of its own -/
  | forward
  deriving DecidableEq, Repr

/-- A reference type, up to what it refers to. -/
structure Ref where
  isConst : Bool
  isRvalue : Bool
  deriving DecidableEq, Repr

namespace Param

/-- What the parameter refers to; `none` where that is a template parameter. -/
def type : Param κ ν → Option (ClassType κ ν)
  | constRef t => some t
  | rvalueRef t => some t
  | forward => none

@[simp] theorem type_forward : (forward : Param κ ν).type = none := rfl

/-- The reference that the parameter is for the argument `a`. -/
def ref : Param κ ν → Arg κ α → Ref
  | constRef _, _ => ⟨true, false⟩
  | rvalueRef _, _ => ⟨false, true⟩
  | forward, a => ⟨a.isConst, a.isRvalue⟩

/-- Does the reference bind to the argument? -/
def binds : Param κ ν → Arg κ α → Bool
  | constRef _, _ => true
  | rvalueRef _, a => a.isRvalue && !a.isConst
  | forward, _ => true

end Param

/-- A function template; `pack` when `Rest &&...` follows its parameters. -/
structure Template (κ ν : Type) where
  params : List (Param κ ν)
  pack : Bool
  deriving DecidableEq, Repr

/-- The parameters for a call with `n` arguments. -/
def Template.expand (f : Template κ ν) (n : ℕ) : List (Param κ ν) :=
  if f.pack then f.params ++ List.replicate (n - f.params.length) .forward else f.params

/-! ### Deduction -/

section Deduction

variable [DecidableEq κ] [DecidableEq ν] [DecidableEq α]

/-- Deduces the names `ns` from `as`, after what is deduced in `σ` already: a name stands for one
argument. -/
def deduceArgs : List ν → List α → List (ν × α) → Option (List (ν × α))
  | [], [], σ => some σ
  | n :: ns, a :: as, σ =>
      match σ.lookup n with
      | none => deduceArgs ns as ((n, a) :: σ)
      | some b => if b = a then deduceArgs ns as σ else none
  | _, _, _ => none

/-- Deduces the type of a parameter from that of an argument; `none` is a type that is no class. -/
def deduceType :
    Option (ClassType κ ν) → Option (ClassType κ α) → List (ν × α) → Option (List (ν × α))
  | none, _, σ => some σ
  | some t, some u, σ => if t.template = u.template then deduceArgs t.args u.args σ else none
  | some _, none, _ => none

/-- Deduces the types of all parameters. -/
def deduceTypes :
    List (Option (ClassType κ ν)) → List (Option (ClassType κ α)) → List (ν × α) →
      Option (List (ν × α))
  | [], [], σ => some σ
  | t :: ts, u :: us, σ => (deduceType t u σ).bind (deduceTypes ts us)
  | _, _, _ => none

/-- Does the template take part in the call? -/
def viable (f : Template κ ν) (args : List (Arg κ α)) : Bool :=
  let ps := f.expand args.length
  (deduceTypes (ps.map Param.type) (args.map fun a => some a.type) []).isSome &&
    (ps.zip args).all fun p => p.1.binds p.2

/-- Can the parameters of `g` be deduced from those of `f`, where a template parameter of `f`
stands for a type of its own? -/
def atLeastAsSpecialized (n : ℕ) (f g : Template κ ν) : Bool :=
  (deduceTypes ((g.expand n).map Param.type) ((f.expand n).map Param.type) []).isSome

/-- Partial ordering of function templates, for a call with `n` arguments. -/
def moreSpecialized (n : ℕ) (f g : Template κ ν) : Bool :=
  atLeastAsSpecialized n f g && !atLeastAsSpecialized n g f

end Deduction

/-! ### The best template -/

/-- The conversion to `r` is better than the one to `s`: an rvalue reference to an rvalue is better
than an lvalue reference, and a reference that adds no `const` than one that does. -/
def Ref.better (r s : Ref) : Bool := r.isRvalue && !s.isRvalue || !r.isConst && s.isConst

/-- The references the parameters are for `args`. -/
def Template.refs (f : Template κ ν) (args : List (Arg κ α)) : List Ref :=
  List.zipWith Param.ref (f.expand args.length) args

/-- Does some argument convert better for the first list of references than for the second? -/
def someBetter (rs ss : List Ref) : Bool := (List.zipWith Ref.better rs ss).any id

section Resolution

variable [DecidableEq κ] [DecidableEq ν] [DecidableEq α] [DecidableEq ι]

/-- Is `f` the better template for the call? -/
def better (args : List (Arg κ α)) (f g : Template κ ν) : Bool :=
  !someBetter (g.refs args) (f.refs args) &&
    (someBetter (f.refs args) (g.refs args) || moreSpecialized args.length f g)

/-- Does `f` take part, and is it better than every other template of `fs` that does? -/
def best (template : ι → Template κ ν) (fs : List ι) (args : List (Arg κ α)) (f : ι) : Bool :=
  viable (template f) args &&
    fs.all fun g => g = f || !viable (template g) args || better args (template f) (template g)

/-- The template of `fs` that is called with `args`; `none` when no template takes part or none is
better than all others. -/
def resolve (template : ι → Template κ ν) (fs : List ι) (args : List (Arg κ α)) : Option ι :=
  fs.find? (best template fs args)

omit [DecidableEq α] [DecidableEq ι] in
theorem moreSpecialized_asymm {n : ℕ} {f g : Template κ ν} (h : moreSpecialized n f g = true) :
    moreSpecialized n g f = false := by
  simp only [moreSpecialized, Bool.and_eq_true, Bool.not_eq_true'] at h ⊢
  simp [h.1]

omit [DecidableEq α] [DecidableEq ι] in
/-- Of two templates at most one is better. -/
theorem better_asymm {args : List (Arg κ α)} {f g : Template κ ν} (h : better args f g = true) :
    better args g f = false := by
  simp only [better, Bool.and_eq_true, Bool.not_eq_true', Bool.or_eq_true] at h
  obtain ⟨hworse, hbetter | hspecial⟩ := h
  · simp [better, hbetter]
  · simp [better, hworse, moreSpecialized_asymm hspecial]

variable {template : ι → Template κ ν} {fs : List ι} {args : List (Arg κ α)} {f g : ι}

theorem best_iff : best template fs args f = true ↔ viable (template f) args = true ∧
    ∀ g ∈ fs, g ≠ f → viable (template g) args = true →
      better args (template f) (template g) = true := by
  simp only [best, Bool.and_eq_true, List.all_eq_true, Bool.or_eq_true, decide_eq_true_eq,
    Bool.not_eq_true']
  refine and_congr_right fun _ => forall₂_congr fun g _ => ?_
  cases viable (template g) args <;> simp [or_iff_not_imp_left]

theorem best_unique (hf : f ∈ fs) (hg : g ∈ fs) (hbest : best template fs args f = true)
    (hbest' : best template fs args g = true) : f = g := by
  rw [best_iff] at hbest hbest'
  by_contra hne
  have hfg := hbest.2 g hg (fun h => hne h.symm) hbest'.1
  have hgf := hbest'.2 f hf hne hbest.1
  rw [better_asymm hfg] at hgf
  exact absurd hgf (by decide)

/-- **The template called is the one that is best.** -/
theorem resolve_eq_some_iff :
    resolve template fs args = some f ↔ f ∈ fs ∧ best template fs args f = true := by
  constructor
  · intro h
    exact ⟨List.mem_of_find?_eq_some h, List.find?_some h⟩
  · rintro ⟨hf, hbest⟩
    cases hr : resolve template fs args with
    | none => exact absurd hbest (List.find?_eq_none.1 hr f hf)
    | some g =>
        have hg : g ∈ fs := List.mem_of_find?_eq_some hr
        rw [best_unique hg hf (List.find?_some hr) hbest]

end Resolution

/-! ### What a pack takes -/

/-- The template without its pack. -/
def Template.fixed (f : Template κ ν) : Template κ ν := ⟨f.params, false⟩

section Pack

variable {f g : Template κ ν} {args rest : List (Arg κ α)}

theorem expand_fixed (n : ℕ) : f.fixed.expand n = f.params := rfl

theorem expand_add (hf : f.pack = true) (n : ℕ) :
    f.expand (f.params.length + n) = f.params ++ List.replicate n .forward := by
  rw [Template.expand, if_pos hf, Nat.add_sub_cancel_left]

theorem expand_append (hf : f.pack = true) (h : args.length = f.params.length) :
    f.expand (args ++ rest).length = f.params ++ List.replicate rest.length .forward := by
  rw [List.length_append, h, expand_add hf]

theorem refs_append (hf : f.pack = true) (h : args.length = f.params.length) :
    f.refs (args ++ rest) = f.fixed.refs args ++ rest.map fun a => ⟨a.isConst, a.isRvalue⟩ := by
  have hrest : List.zipWith Param.ref (List.replicate rest.length (.forward : Param κ ν)) rest =
      rest.map fun a => ⟨a.isConst, a.isRvalue⟩ := by
    induction rest with
    | nil => rfl
    | cons a rest ih => simpa [List.replicate_succ, Param.ref] using ih
  rw [Template.refs, expand_append hf h, List.zipWith_append h.symm, hrest]
  rfl

theorem someBetter_self (rs : List Ref) : someBetter rs rs = false := by
  induction rs with
  | nil => rfl
  | cons r rs ih =>
    have hr : r.better r = false := by simp [Ref.better]
    simpa [someBetter, hr] using ih

theorem someBetter_append {rs ss : List Ref} (h : rs.length = ss.length) (ts : List Ref) :
    someBetter (rs ++ ts) (ss ++ ts) = someBetter rs ss := by
  have hts := someBetter_self ts
  rw [someBetter] at hts ⊢
  rw [List.zipWith_append h, List.any_append, hts, Bool.or_false]
  rfl

variable [DecidableEq κ] [DecidableEq ν] [DecidableEq α]

omit [DecidableEq κ] [DecidableEq ν] [DecidableEq α] in
theorem refs_length (h : args.length = f.params.length) :
    (f.fixed.refs args).length = args.length := by
  simp [Template.refs, expand_fixed, h]

theorem deduceTypes_replicate (us : List (Option (ClassType κ α))) (σ : List (ν × α)) :
    deduceTypes (List.replicate us.length none) us σ = some σ := by
  induction us with
  | nil => rfl
  | cons u us ih => simpa [List.replicate_succ, deduceTypes, deduceType] using ih

theorem deduceTypes_append (ts : List (Option (ClassType κ ν)))
    (us : List (Option (ClassType κ α))) (h : ts.length = us.length)
    (vs : List (Option (ClassType κ α))) (σ : List (ν × α)) :
    deduceTypes (ts ++ List.replicate vs.length none) (us ++ vs) σ = deduceTypes ts us σ := by
  induction ts generalizing us σ with
  | nil =>
      obtain rfl : us = [] := List.length_eq_zero_iff.1 h.symm
      exact deduceTypes_replicate vs σ
  | cons t ts ih =>
      obtain _ | ⟨u, us⟩ := us
      · cases h
      · have hlen : ts.length = us.length := Nat.succ.inj h
        simp only [List.cons_append, deduceTypes]
        cases deduceType t u σ with
        | none => rfl
        | some τ => exact ih us hlen τ

/-- Whether a template takes part does not depend on what its pack takes. -/
theorem viable_append (hf : f.pack = true) (h : args.length = f.params.length) :
    viable f (args ++ rest) = viable f.fixed args := by
  have hbinds : ((List.replicate rest.length (.forward : Param κ ν)).zip rest).all
      (fun p => p.1.binds p.2) = true := by
    refine List.all_eq_true.2 fun p hp => ?_
    rw [List.eq_of_mem_replicate (List.of_mem_zip hp).1]
    rfl
  have htypes := deduceTypes_append (f.params.map Param.type) (args.map fun a => some a.type)
    (by simp [h]) (rest.map fun a => some a.type) []
  rw [List.length_map] at htypes
  simp only [viable]
  rw [expand_append hf h, List.map_append, List.map_append, List.map_replicate,
    Param.type_forward, htypes, List.zip_append h.symm, List.all_append, hbinds, Bool.and_true]
  rfl

theorem atLeastAsSpecialized_add (hf : f.pack = true) (hg : g.pack = true)
    (h : f.params.length = g.params.length) (n : ℕ) :
    atLeastAsSpecialized (f.params.length + n) f g =
      atLeastAsSpecialized f.params.length f.fixed g.fixed := by
  have htypes := deduceTypes_append (g.params.map Param.type) (f.params.map Param.type)
    (by simp [h]) (List.replicate n none) []
  rw [List.length_replicate] at htypes
  rw [atLeastAsSpecialized, expand_add hf, h, expand_add hg, List.map_append, List.map_append,
    List.map_replicate, Param.type_forward, htypes]
  rfl

omit [DecidableEq α] in
/-- Which of two templates is better does not depend on what their packs take. -/
theorem better_append (hf : f.pack = true) (hg : g.pack = true)
    (hfa : args.length = f.params.length) (hga : args.length = g.params.length) :
    better (args ++ rest) f g = better args f.fixed g.fixed := by
  have hfg : (f.fixed.refs args).length = (g.fixed.refs args).length := by
    rw [refs_length hfa, refs_length hga]
  have hspecial : moreSpecialized (args ++ rest).length f g =
      moreSpecialized args.length f.fixed g.fixed := by
    have hlen := hfa.symm.trans hga
    rw [List.length_append, moreSpecialized, moreSpecialized, hfa,
      atLeastAsSpecialized_add hf hg hlen, hlen, atLeastAsSpecialized_add hg hf hlen.symm]
  rw [better, better, refs_append hf hfa, refs_append hg hga, someBetter_append hfg,
    someBetter_append hfg.symm, hspecial]

end Pack

end Overload
