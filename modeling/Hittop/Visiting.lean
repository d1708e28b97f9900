/-
**What the visitors of a parse can change.**

A finite nest of visitors changes neither whether a parse returns nor what it comes to; a visitor
that throws ends it.  The visitors of a URI, of a request and of a JSON value are such nests: none
of them hands on a visitor that is called with the same rule once more, but for the two of a request
that parse an integer, which hand on none.  What they throw is what a conversion of a text throws.

Main results:

* `Hittop.visitor_transparency` — a parse with visitors and a parse without agree;
* `Hittop.uriVisitors_nested`, `Hittop.requestVisitors_nested`, `Hittop.jsonVisitors_nested` — the
  visitors of the library.
-/

import Hittop.Transparency
import Hittop.Http.Visitor
import Hittop.Json.Visitor

set_option relaxedAutoImplicit false
set_option autoImplicit false

namespace Hittop

variable {ρ φ κ ν σ : Type}

/-! ### Visitors that call their runner once -/

theorem map_eq_error {α β : Type} {x : Except Fault α} {f : α → β} {e : Fault} :
    x.map f = .error e ↔ x = .error e := by
  cases x with
  | ok a => simp [Except.map]
  | error e' => simp [Except.map]

theorem Body.call_calls {E : Fault → Prop} {P : ν → Prop} {copy : Bool} {args : Option ν}
    {accepted : List κ → σ → Except Fault σ} {failed : σ → σ} {st : σ}
    (hargs : ∀ v, args = some v → P v)
    (haccepted : ∀ text st e, accepted text st = .error e → E e) :
    (Body.call copy args accepted failed st).Calls E P := by
  refine ⟨hargs, fun result st' => ?_⟩
  by_cases hok : result.ok = true
  · simp only [hok, if_true]
    cases h : accepted result.get st' with
    | ok st'' => trivial
    | error e => exact haccepted _ _ e h
  · simp only [hok]
    trivial

theorem Body.Calls.mono {E E' : Fault → Prop} {P P' : ν → Prop} {body : Body κ ν σ}
    (h : body.Calls E P) (hE : ∀ e, E e → E' e) (hP : ∀ v, P v → P' v) : body.Calls E' P' := by
  induction body with
  | done st => trivial
  | throw e => exact hE e h
  | run copy args st next ih =>
      exact ⟨fun v hv => hP v (h.1 v hv), fun r st' => ih r st' (h.2 r st')⟩

/-- Visitors are a nest if none of them hands on one that is callable with the same rule. -/
theorem Visitors.nested_of_callable {V : Visitors ρ φ κ ν σ} {E : Fault → Prop}
    (h : ∀ v g body st, V.operator v g = some body →
      (body st).Calls E fun v' => V.operator v' g = none) :
    V.Nested E fun v g => if (V.operator v g).isSome then 1 else 0 := by
  intro v g body st hop
  refine (h v g body st hop).mono (fun _ he => he) fun v' hv' => ?_
  simp [hv', hop]

/-! ### The visitors of a URI -/

section Uri

variable {toInt : κ → ℤ} {e : UriVisitor → ν} {p : Pointer σ (Uri κ)}

/-- What `std::stoul` throws. -/
def StoulFault (e : Fault) : Prop := e = .invalidArgument ∨ e = .outOfRange

theorem stoul_fault {text : List ℤ} {e : Fault} (h : stoul text = .error e) : StoulFault e := by
  simp only [stoul] at h
  split_ifs at h <;> (cases h; simp [StoulFault])

theorem Pointer.visit_calls {E : Fault → Prop} {P : ν → Prop} {args : Option ν}
    {before : Uri κ → Uri κ} {accepted : List κ → Uri κ → Except Fault (Uri κ)}
    {failed : Uri κ → Uri κ} {body : σ → Body κ ν σ} {st : σ}
    (h : p.visit args before accepted failed = some body) (hargs : ∀ v, args = some v → P v)
    (haccepted : ∀ text u e, accepted text u = .error e → E e) : (body st).Calls E P := by
  obtain rfl := Option.some.inj h
  refine Body.call_calls hargs fun text st' e he => ?_
  exact haccepted text _ e (map_eq_error.1 he)

/-- A visitor of a URI hands on one that is not callable with the same rule. -/
theorem UriVisitor.operator_calls {v : UriVisitor} {g : Grammar} {body : σ → Body κ ν σ} {st : σ}
    (h : v.operator toInt e p g = some body) :
    (body st).Calls StoulFault fun v' =>
      ∃ v'' : UriVisitor, v' = e v'' ∧ v''.operator toInt e p g = none := by
  have hpart : ∀ {part : List κ → Uri κ → Uri κ}, p.visitPart part = some body →
      (body st).Calls StoulFault fun v' =>
        ∃ v'' : UriVisitor, v' = e v'' ∧ v''.operator toInt e p g = none := by
    intro part hvisit
    exact p.visit_calls hvisit (by simp) fun _ _ _ he => by cases he
  cases v with
  | make =>
      simp only [operator] at h
      split_ifs at h with hg
      refine p.visit_calls h (fun v hv => ⟨.field, (Option.some.inj hv).symm, ?_⟩)
        fun _ _ _ he => by cases he
      subst hg
      rfl
  | field =>
      simp only [operator] at h
      split_ifs at h with _ huserinfo _ _ hpath
      · exact hpart h
      · refine p.visit_calls h (fun v hv => ⟨.userinfo, (Option.some.inj hv).symm, ?_⟩)
          fun _ _ _ he => by cases he
        subst huserinfo
        rfl
      · exact hpart h
      · exact p.visit_calls h (by simp) fun text u e he => stoul_fault (map_eq_error.1 he)
      · refine p.visit_calls h (fun v hv => ⟨.segment, (Option.some.inj hv).symm, ?_⟩)
          fun _ _ _ he => by cases he
        rcases hpath with rfl | rfl <;> rfl
      · exact hpart h
      · exact hpart h
  | userinfo =>
      simp only [operator] at h
      split_ifs at h
      exact hpart h
  | segment =>
      simp only [operator] at h
      split_ifs at h
      exact hpart h

/-- The visitors of a URI are a nest. -/
theorem uriVisitors_nested (toInt : κ → ℤ) : (uriVisitors toInt).Nested StoulFault
    fun v g => if ((uriVisitors toInt).operator v g).isSome then 1 else 0 := by
  refine Visitors.nested_of_callable fun v g body st h => ?_
  refine (UriVisitor.operator_calls h).mono (fun _ he => he) fun v' hv' => ?_
  obtain ⟨v'', rfl, hv''⟩ := hv'
  exact hv''

end Uri

/-! ### The visitors of a request -/

/-- How many visitors a visitor of a request may hand on, each to the next. -/
def RequestVisitor.depth (toInt : κ → ℤ) : RequestVisitor → Grammar → ℕ
  | .request, _ => 2
  | .uri v, g => if ((RequestVisitor.uri v).operator toInt g).isSome then 1 else 0
  | _, _ => 1

theorem RequestVisitor.visit_calls {E : Fault → Prop} {P : RequestVisitor → Prop}
    {args : Option RequestVisitor} {before : RequestParse κ → RequestParse κ}
    {accepted : List κ → RequestParse κ → RequestParse κ}
    {body : RequestParse κ → Body κ RequestVisitor (RequestParse κ)} {st : RequestParse κ}
    (h : visit args before accepted = some body) (hargs : ∀ v, args = some v → P v) :
    (body st).Calls E P := by
  obtain rfl := Option.some.inj h
  exact Body.call_calls hargs fun _ _ _ he => by cases he

/-- The visitors of a request are a nest. -/
theorem requestVisitors_nested (toInt : κ → ℤ) :
    (requestVisitors toInt).Nested StoulFault (RequestVisitor.depth toInt) := by
  intro v g body st h
  change v.operator toInt g = some body at h
  cases v with
  | request =>
      have hlt : ∀ v' : RequestVisitor, v' ≠ .request → v'.depth toInt g < 2 := by
        intro v' hv'
        cases v' with
        | request => exact absurd rfl hv'
        | uri v => simp only [RequestVisitor.depth]; split_ifs <;> omega
        | _ => simp [RequestVisitor.depth]
      simp only [RequestVisitor.operator] at h
      split_ifs at h
      all_goals
        refine RequestVisitor.visit_calls h fun v' hv' => hlt v' ?_
        rintro rfl
        simp at hv'
  | uri v =>
      have hone : ((RequestVisitor.uri v).operator toInt g).isSome = true := by rw [h]; rfl
      refine (UriVisitor.operator_calls h).mono (fun _ he => he) fun v' hv' => ?_
      obtain ⟨v'', rfl, hv''⟩ := hv'
      have hnone : (RequestVisitor.uri v'').operator toInt g = none := hv''
      simp [RequestVisitor.depth, hnone, hone]
  | majorVersion => exact RequestVisitor.visit_calls h (by simp)
  | minorVersion => exact RequestVisitor.visit_calls h (by simp)
  | header =>
      simp only [RequestVisitor.operator] at h
      split_ifs at h <;> exact RequestVisitor.visit_calls h (by simp)

/-! ### The visitors of a JSON value -/

section Json

variable {δ : Type} {stod : List Byte → Except Fault δ}

/-- What the conversions of the texts of strings and numbers throw. -/
def JsonFault (stod : List Byte → Except Fault δ) (e : Fault) : Prop :=
  e = .undefined ∨ e = .runtimeError ∨ ∃ text, stod text = .error e

theorem JsonFault.of_unescape {text : List Byte} {e : Fault} (h : unescapeUnsafe text = .error e) :
    JsonFault stod e := by
  fun_induction unescapeUnsafe text with
  | case1 => cases h
  | case2 | case5 =>
      cases h
      exact .inl rfl
  | case6 =>
      cases h
      exact .inr (.inl rfl)
  | case3 _ _ _ _ _ _ ih | case4 _ _ _ _ _ _ _ _ _ _ ih | case7 _ _ _ ih =>
      exact ih (map_eq_error.1 h)

/-- The visitors of a JSON value are a nest. -/
theorem jsonVisitors_nested (stod : List Byte → Except Fault δ) :
    (jsonVisitors stod).Nested (JsonFault stod)
      fun v g => if ((jsonVisitors stod).operator v g).isSome then 1 else 0 := by
  refine Visitors.nested_of_callable fun v g body st h => ?_
  change v.operator stod g = some body at h
  have hassign : ∀ {value : List Byte → Except Fault (JsonValue δ)},
      JsonVisitor.assign value = some body → (∀ text e, value text = .error e → JsonFault stod e) →
      (body st).Calls (JsonFault stod) fun v' => v'.operator stod g = none := by
    intro value hbody hvalue
    obtain rfl := Option.some.inj hbody
    exact Body.call_calls (by simp) fun text _ e he => hvalue text e (map_eq_error.1 he)
  have hnext : ∀ {use : JsonValue δ → JsonParse δ → JsonParse δ}, g = Json.Grammar.Value →
      JsonVisitor.parseNext use = some body →
      (body st).Calls (JsonFault stod) fun v' => v'.operator stod g = none := by
    intro use hg hbody
    obtain rfl := Option.some.inj hbody
    refine Body.call_calls (fun v hv => ?_) fun _ _ _ he => by cases he
    cases hv
    subst hg
    rfl
  cases v with
  | value =>
      simp only [JsonVisitor.operator] at h
      split_ifs at h with _ _ _ _ harray hobject
      · exact hassign h fun text e he => JsonFault.of_unescape (map_eq_error.1 he)
      · exact hassign h fun _ _ he => by cases he
      · exact hassign h fun text e he => .inr (.inr ⟨text, map_eq_error.1 he⟩)
      · exact hassign h fun _ _ he => by cases he
      · obtain rfl := Option.some.inj h
        refine Body.call_calls (fun v hv => ?_) fun _ _ _ he => by cases he
        cases hv
        subst harray
        rfl
      · obtain rfl := Option.some.inj h
        refine Body.call_calls (fun v hv => ?_) fun _ _ _ he => by cases he
        cases hv
        subst hobject
        rfl
  | item =>
      simp only [JsonVisitor.operator] at h
      split_ifs at h with hvalue
      exact hnext hvalue h
  | member =>
      simp only [JsonVisitor.operator] at h
      split_ifs at h with hproperty
      obtain rfl := Option.some.inj h
      refine Body.call_calls (fun v hv => ?_) fun _ _ _ he => by cases he
      cases hv
      subst hproperty
      rfl
  | field =>
      simp only [JsonVisitor.operator] at h
      split_ifs at h with _ hvalue
      · obtain rfl := Option.some.inj h
        exact Body.call_calls (by simp) fun text _ e he =>
          JsonFault.of_unescape (map_eq_error.1 he)
      · exact hnext hvalue h

end Json

/-! ### Transparency -/

/-- **Visitors and optimisations are transparent.**  For a grammar whose `Force`s are applied to
`Repeat`s and whose `Either`s are not empty, and for characters inside the lookup tables, a parse
with a visitor and a parse without one agree on the class of their results and, unless these are
hard failures, on the position.  Where the visitor is one of a finite nest and nothing is thrown on
the way, one of the two parses returns if and only if the other does. -/
theorem visitor_transparency (Γ : Env ρ φ κ) (V : Visitors ρ φ κ ν σ)
    (hΓ : ∀ m, Γ.Regular (Γ.type m)) (htable : ∀ c, Γ.inTable (Γ.toInt c) = true) (v : ν)
    (g : Rule ρ φ) (hg : Γ.Regular g) (s : List κ) (st : σ) :
    (∀ r r' st', Parses Γ g s r → Visits Γ V v g s st r' st' → Agrees r r') ∧
      ∀ (E : Fault → Prop) (depth : ν → Rule ρ φ → ℕ), ¬ E .outOfFuel → V.Nested E depth →
        (∀ e, ¬ Throws Γ V v g s st e) →
        ((∃ r, Parses Γ g s r) ↔ ∃ r' st', Visits Γ V v g s st r' st') := by
  refine ⟨fun r r' st' hr hr' => ?_, fun E depth hE hV hno => ⟨?_, ?_⟩⟩
  · obtain ⟨n, hn⟩ := hr'
    obtain ⟨r₁, hr₁, hagrees⟩ := parses_of_parse hΓ htable hg hn
    rwa [hr.unique hr₁]
  · rintro ⟨r, hr⟩
    rcases hr.visits_or_throws hΓ htable hg hE hV v with h | ⟨e, -, hthrows⟩
    · exact h
    · exact absurd hthrows (hno e)
  · rintro ⟨r', st', n, hn⟩
    obtain ⟨r, hr, -⟩ := parses_of_parse hΓ htable hg hn
    exact ⟨r, hr⟩

/-- Parsing an array into a value ends where the parse without the visitors ends. -/
theorem visitor_transparency_array : ∃ r, Parses octets Json.Grammar.Value (bytes "[true,1] ") r ∧
    Agrees r (.success 9) := by
  have hreturns : ((parse octets (jsonVisitors fun _ => .ok (1 : ℕ)) 60 (some .value)
      Json.Grammar.Value (bytes "[true,1] ") .init).map Prod.fst) = .ok (.success 9) := by
    decide +kernel
  cases hrun : parse octets (jsonVisitors fun _ => .ok (1 : ℕ)) 60 (some .value)
      Json.Grammar.Value (bytes "[true,1] ") .init with
  | error e =>
      rw [hrun] at hreturns
      cases hreturns
  | ok p =>
      obtain ⟨r', st'⟩ := p
      rw [hrun] at hreturns
      cases hreturns
      have hvisits : Visits octets (jsonVisitors fun _ => .ok (1 : ℕ)) .value Json.Grammar.Value
          (bytes "[true,1] ") .init (.success 9) st' := ⟨60, hrun⟩
      obtain ⟨hagrees, hiff⟩ := visitor_transparency octets (jsonVisitors fun _ => .ok (1 : ℕ))
        (regular_type _ _) octets_inTable .value Json.Grammar.Value
        (by simp [Env.Regular, Json.Grammar.Value, Rule.Each, Rule.RegularHead])
        (bytes "[true,1] ") .init
      obtain ⟨r, hr⟩ := (hiff _ _ (by simp [JsonFault]) (jsonVisitors_nested _)
        fun e => hvisits.not_throws).2 ⟨_, _, hvisits⟩
      exact ⟨r, hr, hagrees _ _ _ hr hvisits⟩

end Hittop
