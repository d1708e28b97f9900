/-
**Visitors and optimisations are transparent.**

`Parse<G>(input)` rewrites ordered choices of single-character rules into lookup tables, and
`Parse<G>(input, visitor)` runs the plain parsers, stops at every rule the visitor is callable with
and hands it a runner.  Neither changes the verdict: the two parses are of one class — success,
`INCOMPLETE`, hard failure — and agree on the position of the first two.

A lookup table is the choice it replaces because its rules look at one character only.  A visitor
cannot change the verdict because all it can do, unless it throws, is run the same parser on the
same range.

Main definitions:

* `Hittop.Body.Calls`, `Hittop.Visitors.Nested` — the visitors handed on, and a finite nest of them;
* `Hittop.Agrees` — two results of one class;
* `Hittop.Throws` — a parse with a visitor throws.

Main results:

* `Hittop.meaning_none_eq` — the optimised parser has the verdicts of the plain one;
* `Hittop.parse_follows`, `Hittop.parse_yields` — the two directions of the simulation;
* `Hittop.parses_of_parse`, `Hittop.Parses.visits_or_throws` — what they say of two parses.
-/

import Hittop.Environment
import Hittop.Simulation
import Hittop.SingleChar

set_option relaxedAutoImplicit false
set_option autoImplicit false

namespace Hittop

open Exec

variable {ρ φ κ ν σ : Type}

/-! ### Nests of visitors -/

/-- Every visitor that the body calls the runner with has the property, and what it throws are
faults of `E`. -/
def Body.Calls (E : Fault → Prop) (P : ν → Prop) : Body κ ν σ → Prop
  | .done _ => True
  | .throw e => E e
  | .run _ args _ next => (∀ v, args = some v → P v) ∧ ∀ r st, (next r st).Calls E P

/-- A finite nest: at the rule it is called with, a visitor hands on visitors of smaller depth
only.  It may throw faults of `E`. -/
def Visitors.Nested (V : Visitors ρ φ κ ν σ) (E : Fault → Prop) (depth : ν → Rule ρ φ → ℕ) : Prop :=
  ∀ v g body st, V.operator v g = some body → (body st).Calls E fun v' => depth v' g < depth v g

/-- Whatever a visitor's body does, the result its runner holds has the verdict that every call of
the runner yields. -/
theorem runBody_yields {E : Fault → Prop} {P : ν → Prop} {runner : Option ν → Exec σ ParseResult}
    {w : Verdict} (hrun : ∀ args, (∀ v, args = some v → P v) → Yields E (runner args) w)
    (s : List κ) (body : Body κ ν σ) (hbody : body.Calls E P) (result : Option ParseResult)
    (hresult : ∀ r, result = some r → r.verdict = w) (st : σ) :
    Ends E (fun result' => ∀ r, result' = some r → r.verdict = w)
      (runBody runner s body result st) := by
  induction body generalizing result st with
  | done st₀ => exact .value hresult
  | throw e => exact .fault hbody
  | run copy args st₀ next ih =>
      have hr := hrun args hbody.1 st₀
      simp only [runBody]
      generalize runner args st₀ = o at hr
      cases hr with
      | fault he => exact .fault he
      | value hw =>
          refine ih _ _ (hbody.2 _ _) _ (fun r' hr' => ?_) _
          cases copy with
          | true => exact hresult r' hr'
          | false =>
              cases hr'
              exact hw

section Transparency

variable {Γ : Env ρ φ κ} {V : Visitors ρ φ κ ν σ} {E : Fault → Prop} {depth : ν → Rule ρ φ → ℕ}

/-- A visitor changes nothing at a rule where neither the plain parsers nor the parse without a
visitor would. -/
theorem yields_outcome (hV : V.Nested E depth) {g : Rule ρ φ} {s : List κ} {w : Verdict}
    (hplain : ∀ args, Yields E (parserOutcome Γ V args g s) w)
    (hnone : Yields E (outcome Γ V none g s) w) (args : Option ν) :
    Yields E (outcome Γ V args g s) w := by
  have hsome : ∀ d v, depth v g < d → Yields E (outcome Γ V (some v) g s) w := by
    intro d
    induction d with
    | zero => intro v hv; omega
    | succ d ih =>
        intro v hv
        cases hop : V.operator v g with
        | none =>
            rw [outcome_some_of_none hop]
            exact hplain (some v)
        | some body =>
            have hrun : ∀ args, (∀ v', args = some v' → depth v' g < depth v g) →
                Yields E (outcome Γ V args g s) w := by
              intro args hargs
              cases args with
              | none => exact hnone
              | some v' =>
                  have hlt := hargs v' rfl
                  exact ih v' (by omega)
            intro st
            rw [outcome_some_of_body hop]
            refine (runBody_yields hrun s (body st) (hV v g body st hop) none (by simp) st).bind
              fun result st₁ hresult => ?_
            cases result with
            | none => exact hnone st₁
            | some r => exact .value (hresult r rfl)
  cases args with
  | none => exact hnone
  | some v => exact hsome _ v (Nat.lt_succ_self _)

/-! ### Parsing without a visitor, once more -/

theorem yields_of_parse {n : ℕ} {g : Rule ρ φ} {s : List κ} {st st' : σ} {r : ParseResult}
    (h : parse Γ V n none g s st = .ok (r, st')) : Yields E (outcome Γ V none g s) r.verdict := by
  rw [parse_none_eq, lift_ok_iff] at h
  intro st₁
  have hr : outcome Γ V none g s st₁ = .ok (r, st₁) := by
    refine outcome_ok_iff.2 ⟨n, ?_⟩
    rw [parse_none_eq, lift_ok_iff]
    exact ⟨h.1, rfl⟩
  rw [hr]
  exact .value rfl

theorem yields_of_plain {n : ℕ} {g : Rule ρ φ} {s : List κ} {st st' : σ} {r : ParseResult}
    (h : parser Γ V n none g s st = .ok (r, st')) :
    Yields E (parserOutcome Γ V none g s) r.verdict := by
  rw [parser_none_eq, lift_ok_iff] at h
  intro st₁
  have hr : parserOutcome Γ V none g s st₁ = .ok (r, st₁) := by
    refine (parser_chain Γ V none g s).limit_ok_iff.2 ⟨n, ?_⟩
    rw [parser_none_eq, lift_ok_iff]
    exact ⟨h.1, rfl⟩
  rw [hr]
  exact .value rfl

/-! ### The empty range -/

private theorem yields_nil_aux (hΓ : ∀ m, Γ.Regular (Γ.type m)) (hV : V.Nested E depth) (N : ℕ)
    (hrank : ∀ m, Γ.rank m < N → Γ.single m = true →
      ∀ args, Yields E (parserOutcome Γ V args (Γ.type m) []) .incomplete)
    (g : Rule ρ φ) (hg : g.SingleChar Γ) (hN : ∀ m ∈ g.traitRefs, Γ.rank m < N)
    (args : Option ν) : Yields E (parserOutcome Γ V args g []) .incomplete := by
  -- the parts of a rule are smaller; a reference has a smaller rank
  induction hn : sizeOf g using Nat.strongRecOn generalizing g args with
  | ind n ih =>
  have hparse : ∀ g', g'.SingleChar Γ →
      (∀ args, Yields E (parserOutcome Γ V args g' []) .incomplete) →
      ∀ args, Yields E (outcome Γ V args g' []) .incomplete := by
    intro g' hg' hplain
    refine yields_outcome hV hplain ?_
    rw [outcome_none]
    cases g' with
    | either gs =>
        rcases gs with _ | ⟨first, rest⟩
        · exact (Rule.Each.self hg'.1).elim
        · have hall := Rule.isSingleCharRule_trueForAll.1 hg'.2
          have hsp : Γ.special (.charClass (first :: rest)) = .charClass (first :: rest) := by
            simp only [Env.special, List.all_eq_true.2 hall, if_true]
          simp only [Env.optimized, hg'.2, if_true]
          rw [parserOutcome_eq, hsp]
          exact Yields.pure rfl
    | _ => exact hplain none
  rw [parserOutcome_eq]
  have hsingle := special_singleChar hΓ hg
  cases g with
  | literal chs =>
      rcases chs with _ | ⟨ch, _ | ⟨ch', rest⟩⟩
      · simp [Rule.SingleChar, Rule.isSingleCharRule] at hg
      · exact Yields.pure rfl
      · simp [Rule.SingleChar, Rule.isSingleCharRule] at hg
  | charFilter | anyChar => exact Yields.pure rfl
  | charClass rules =>
      have hall : rules.all (·.isSingleCharRule Γ.single) = true :=
        List.all_eq_true.2 (Rule.Each.self hg.1)
      simp only [Env.special, hall, if_true]
      exact Yields.pure rfl
  | either gs =>
      rcases gs with _ | ⟨first, _ | ⟨second, rest⟩⟩
      · exact (Rule.Each.self hg.1).elim
      · exact ih _ (by simp [← hn]; omega) first hsingle
          (fun m hm => hN m (by simp [Rule.traitRefs, Rule.traitRefs.traitRefsAll, hm])) args rfl
      · have hfirst : first.SingleChar Γ :=
          ⟨(Rule.eachOf_cons.1 hg.1.2).1, Rule.isSingleCharRule_trueForAll.1 hg.2 first (by simp)⟩
        have hyield := hparse first hfirst (fun args => ih _ (by simp [← hn]; omega) first hfirst
          (fun m hm => hN m (by simp [Rule.traitRefs, Rule.traitRefs.traitRefsAll, hm]))
          args rfl) args
        cases rest <;>
          · refine hyield.bind fun r hw => ?_
            have hinc := ParseResult.verdict_eq_incomplete.1 hw
            simp only [hinc, decide_true, Bool.or_true, if_true]
            exact Yields.pure hw
  | unless_ r d =>
      have hyield := hparse r hsingle.1 (fun args => ih _ (by simp [← hn]; omega) r hsingle.1
        (fun m hm => hN m (by simp [Rule.traitRefs, hm])) args rfl) args
      refine hyield.bind fun res hw => ?_
      simp only [ParseResult.verdict_eq_incomplete.1 hw, if_true]
      exact Yields.pure hw
  | force g =>
      obtain ⟨g', rfl⟩ := Env.Regular.exists_repeat hg.1
      simp [Rule.SingleChar, Rule.isSingleCharRule] at hg
  | forwardRef m =>
      exact hrank m (hN m (by simp [Rule.traitRefs])) hg.2 args
  | _ => simp [Rule.SingleChar, Rule.isSingleCharRule] at hg

/-- **A single-character rule asks for more on the empty range**, whatever the visitor. -/
theorem yields_nil (hΓ : ∀ m, Γ.Regular (Γ.type m)) (hV : V.Nested E depth) {g : Rule ρ φ}
    (hg : g.SingleChar Γ) (args : Option ν) :
    Yields E (parserOutcome Γ V args g []) .incomplete := by
  have hrank : ∀ N m, Γ.rank m < N → Γ.single m = true →
      ∀ args, Yields E (parserOutcome Γ V args (Γ.type m) []) .incomplete := by
    intro N
    induction N with
    | zero => intro m hm; omega
    | succ N ih =>
        intro m hm hsingle
        refine yields_nil_aux hΓ hV N ih (Γ.type m) ⟨hΓ m, (Γ.single_type m).trans hsingle⟩ ?_
        intro m' hm'
        have := Γ.rank_type m hsingle m' hm'
        omega
  -- the ranks of the references have a bound to begin with
  have hbound : ∀ l : List ρ, ∃ N, ∀ m ∈ l, Γ.rank m < N := by
    intro l
    induction l with
    | nil => exact ⟨0, by simp⟩
    | cons m l ih =>
        obtain ⟨N, hN⟩ := ih
        refine ⟨max N (Γ.rank m + 1), fun m' hm' => ?_⟩
        rcases List.mem_cons.1 hm' with rfl | hm'
        · omega
        · have := hN m' hm'
          omega
  obtain ⟨N, hN⟩ := hbound g.traitRefs
  exact yields_nil_aux hΓ hV N (hrank N) g hg hN args

/-! ### Lookup tables -/

theorem parserMeaning_nil (hΓ : ∀ m, Γ.Regular (Γ.type m)) {g : Rule ρ φ} (hg : g.SingleChar Γ) :
    parserMeaning Γ V none g [] = pure .incomplete := by
  have hnone : (noVisitors ρ φ κ).Nested (fun _ => False) fun _ _ => 0 := fun v => v.elim
  obtain ⟨r, _, hr, hw⟩ := (yields_nil hΓ hnone hg none ()).exists_ok
  obtain ⟨n, hn⟩ := (parser_chain Γ _ none g []).limit_ok_iff.1 hr
  funext st
  refine Exec.verdict_ok_iff.2 ⟨r, (parser_chain Γ V none g []).limit_ok_iff.2 ⟨n, ?_⟩, hw⟩
  rw [parser_none_eq, lift_ok_iff]
  exact ⟨hn, rfl⟩

variable (Γ V) in
/-- The alternatives of an ordered choice, one after the other. -/
noncomputable def choice (gs : List (Rule ρ φ)) : Meaning κ σ :=
  gs.foldr (fun g m => (meaning Γ V none g).alt m) (.lift .fail)

theorem Meaning.alt_fail (p : Meaning κ σ) : p.alt (.lift .fail) = p := by
  funext s
  calc p.alt (.lift .fail) s = p s >>= pure :=
        congrArg (p s >>= ·) (funext fun v => by cases v <;> rfl)
    _ = p s := bind_pure _

/-- **A lookup table is the choice it replaces.** -/
theorem parserMeaning_charClass (hΓ : ∀ m, Γ.Regular (Γ.type m))
    (htable : ∀ c, Γ.inTable (Γ.toInt c) = true) {gs : List (Rule ρ φ)} (hne : gs ≠ [])
    (hgs : ∀ g ∈ gs, g.SingleChar Γ)
    (heq : ∀ g ∈ gs, meaning Γ V none g = parserMeaning Γ V none g) :
    parserMeaning Γ V none (.charClass gs) = choice Γ V gs := by
  have hsp : Γ.special (.charClass gs) = .charClass gs := by
    simp only [Env.special, List.all_eq_true.2 fun g hg => (hgs g hg).2, if_true]
  funext s
  cases s with
  | nil =>
      obtain ⟨g, gs, rfl⟩ := List.exists_cons_of_ne_nil hne
      rw [parserMeaning, parserOutcome_eq, hsp]
      simp only [choice, List.foldr_cons, Meaning.alt, heq g (by simp),
        parserMeaning_nil hΓ (hgs g (by simp)), pure_bind]
      rfl
  | cons c s =>
      rw [parserMeaning, parserOutcome_eq, hsp]
      simp only [Env.operatorOutcome, Env.operatorCall, htable, if_true, Exec.verdict, bind_assoc]
      clear hne hsp
      induction gs with
      | nil => rfl
      | cons g gs ih =>
          have hg := hgs g (by simp)
          -- the table was built on one character, and the choice reads no more than that
          have hcons : parserOutcome Γ V none g (c :: s) = parserOutcome Γ V none g [c] :=
            congrArg limit (funext fun n => parser_cons V hΓ c s [] n hg)
          have hone : Ensures (parserOutcome Γ V none g [c]) OneChar := fun st r st' h =>
            (parser_chain Γ V none g [c]).limit_ok_of_forall
              (fun n => parser_one V hΓ c [] n hg) h
          have ih' := ih (fun g' hg' => hgs g' (by simp [hg'])) fun g' hg' => heq g' (by simp [hg'])
          simp only [charClassTester, choice, List.foldr_cons, Meaning.alt, heq g (by simp),
            parserMeaning, Exec.verdict, bind_assoc, pure_bind, hcons]
          refine hone.bind_congr fun r hr => ?_
          rcases hr with rfl | ⟨hok, hinc⟩
          · rfl
          · have hrej := ParseResult.verdict_eq_reject hok hinc
            simp only [hok, hrej, Bool.false_eq_true, if_false]
            exact ih'

theorem parserMeaning_either_choice (hΓ : ∀ m, Γ.Regular (Γ.type m))
    (htable : ∀ c, Γ.inTable (Γ.toInt c) = true) {gs : List (Rule ρ φ)} (hne : gs ≠ [])
    (hgs : ∀ g ∈ gs, Γ.Regular g)
    (heq : ∀ g ∈ gs, meaning Γ V none g = parserMeaning Γ V none g) :
    parserMeaning Γ V none (.either gs) = choice Γ V gs ∧
      meaning Γ V none (.either gs) = choice Γ V gs := by
  induction gs with
  | nil => exact absurd rfl hne
  | cons first rest ih =>
      have hfirst := heq first (by simp)
      -- the rest of the pack, where there is one
      have hrest : meaning Γ V none (.either rest) = choice Γ V rest := by
        by_cases h : rest = []
        · subst h
          rw [meaning_none]
          exact (parserMeaning_inherits rfl).trans (parserMeaning_failure rfl)
        · exact (ih h (fun g hg => hgs g (by simp [hg])) fun g hg => heq g (by simp [hg])).2
      constructor
      · match rest, hrest with
        | [], _ =>
            have hsp : Γ.special (.either [first]) = .inherits first := rfl
            rw [parserMeaning_inherits hsp, ← hfirst]
            exact (Meaning.alt_fail _).symm
        | [second], _ =>
            have hsp : Γ.special (.either [first, second]) = .either first second := rfl
            rw [parserMeaning_either hsp]
            exact congrArg _ (Meaning.alt_fail _).symm
        | second :: third :: rest, hrest =>
            have hsp : Γ.special (.either (first :: second :: third :: rest)) =
                .either first (.either (second :: third :: rest)) := rfl
            rw [parserMeaning_either hsp, hrest]
            rfl
      · rw [meaning_none]
        simp only [Env.optimized]
        split_ifs with hsingle
        · refine parserMeaning_charClass hΓ htable hne (fun g hg => ⟨hgs g hg, ?_⟩) heq
          exact Rule.isSingleCharRule_trueForAll.1 hsingle g hg
        · have hsp : Γ.special (.either [first, .either rest]) = .either first (.either rest) := rfl
          rw [parserMeaning_either hsp, hrest]
          rfl

/-- **The optimised parser has the verdicts of the plain one.** -/
theorem meaning_none_eq (hΓ : ∀ m, Γ.Regular (Γ.type m))
    (htable : ∀ c, Γ.inTable (Γ.toInt c) = true) {g : Rule ρ φ} (hg : Γ.Regular g) :
    meaning Γ V none g = parserMeaning Γ V none g := by
  induction hn : sizeOf g using Nat.strongRecOn generalizing g with
  | ind n ih =>
  cases g with
  | either gs =>
      have hne : gs ≠ [] := by
        rintro rfl
        exact Rule.Each.self hg
      have hgs := Rule.eachOf_iff.1 hg.2
      have heq : ∀ g ∈ gs, meaning Γ V none g = parserMeaning Γ V none g := by
        intro g hmem
        have := List.sizeOf_lt_of_mem hmem
        exact ih _ (by simp [← hn]; omega) (hgs g hmem) rfl
      obtain ⟨hplain, hopt⟩ := parserMeaning_either_choice hΓ htable hne hgs heq
      rw [hplain, hopt]
  | _ => exact meaning_none

/-! ### From a parse with visitors to a parse without -/

theorem outcome_placed (args : Option ν) (g : Rule ρ φ) (s : List κ) (st : σ) (r : ParseResult)
    (st' : σ) (h : outcome Γ V args g s st = .ok (r, st')) : Placed s.length r :=
  (parse_chain Γ V args g s).limit_ok_of_forall (fun n => parse_placed Γ V n args g s) h

/-- A `Repeat` never rejects. -/
theorem repeatLoop_ne_reject (p : List κ → Exec σ ParseResult) (k : ℕ) (s : List κ) :
    Ensures (repeatLoop p k s) fun r => r.verdict ≠ .reject := by
  induction k generalizing s with
  | zero => exact Ensures.fault _
  | succ k ih =>
      refine (Ensures.true _).bind fun r _ => Ensures.ite (fun _ => ?_) fun _ => ?_
      · refine Ensures.ite (fun _ => Ensures.pure (by simp)) fun _ => ?_
        exact (ih _).bind fun r' hr' => Ensures.pure (by simpa using hr')
      · refine Ensures.ite (fun hinc => Ensures.pure ?_) fun _ => Ensures.pure (by simp)
        rw [ParseResult.verdict_eq_incomplete.2 hinc]
        simp

theorem parse_repeat_ne_reject (n : ℕ) (args : Option ν) (g : Rule ρ φ) (s : List κ) :
    Ensures (parse Γ V n args (.repeat_ g) s) fun r => r.verdict ≠ .reject := by
  induction n generalizing args with
  | zero => exact Ensures.fault _
  | succ n ih =>
      have hparser : ∀ args, Ensures (parser Γ V n args (.repeat_ g) s)
          fun r => r.verdict ≠ .reject := by
        intro args
        cases n with
        | zero => exact Ensures.fault _
        | succ n => exact repeatLoop_ne_reject _ n s
      cases args with
      | none => exact hparser none
      | some v =>
          simp only [parse]
          cases V.operator v (.repeat_ g) with
          | none => exact hparser (some v)
          | some body =>
              intro st
              refine ((runBody_ensures ih s (body st) none (by simp)).bind
                fun result hresult => ?_) st
              cases result with
              | none => exact ih none
              | some r => exact Ensures.pure (hresult r rfl)

private theorem parse_parser_follows (hΓ : ∀ m, Γ.Regular (Γ.type m))
    (htable : ∀ c, Γ.inTable (Γ.toInt c) = true) (n : ℕ) :
    (∀ args g, Γ.Regular g → ∀ s, Follows E (parse Γ V n args g s) (outcome Γ V none g s)) ∧
      ∀ args g, Γ.Regular g → ∀ s,
        Follows E (parser Γ V n args g s) (parserOutcome Γ V none g s) := by
  induction n with
  | zero => exact ⟨fun _ _ _ _ => Follows.fault _ _, fun _ _ _ _ => Follows.fault _ _⟩
  | succ n ih =>
      obtain ⟨hp, hq⟩ := ih
      refine ⟨fun args g hg s => ?_, fun args g hg s => ?_⟩
      · intro st r st' h
        cases args with
        | none => exact yields_of_parse h
        | some v =>
            simp only [parse] at h
            cases hop : V.operator v g with
            | none =>
                rw [hop] at h
                exact (hq (some v) g hg s st r st' h).verdict_congr
                  (congrFun (meaning_none_eq hΓ htable hg) s).symm
            | some body =>
                rw [hop] at h
                obtain ⟨result, st₁, hrun, hconsume⟩ := bind_ok_iff.1 h
                -- whatever the runner is called with, it follows the parse without a visitor
                have hresult := runBody_ensures
                  (P := fun r => Yields E (outcome Γ V none g s) r.verdict)
                  (fun args st r st' h => hp args g hg s st r st' h) s (body st) none (by simp)
                  st result st₁ hrun
                cases result with
                | none => exact yields_of_parse hconsume
                | some r' =>
                    cases hconsume
                    exact hresult r rfl
      · rw [parserOutcome_eq]
        refine operatorCall_follows Γ (hq args) (hp args) (fun g => parse_placed Γ V n args g)
          (fun g s => outcome_placed none g s) n (Env.Regular.calls hΓ hg) ?_ ?_ s
        · exact fun rules _ g' _ s st r st' h => yields_of_plain h
        · intro g' hsp s
          rw [Env.special_eq_force hsp] at hg
          obtain ⟨g'', rfl⟩ := Env.Regular.exists_repeat hg
          exact parse_repeat_ne_reject n args g'' s

/-- **A parse with visitors is followed by the parse without**, whatever the visitors do. -/
theorem parse_follows (hΓ : ∀ m, Γ.Regular (Γ.type m))
    (htable : ∀ c, Γ.inTable (Γ.toInt c) = true) (n : ℕ) (args : Option ν) {g : Rule ρ φ}
    (hg : Γ.Regular g) (s : List κ) : Follows E (parse Γ V n args g s) (outcome Γ V none g s) :=
  (parse_parser_follows hΓ htable n).1 args g hg s

/-! ### From a parse without visitors to a parse with them -/

variable (Γ V E) in
/-- Every plain parser of the rule ends in the verdict, with or without a visitor. -/
def PlainYields (g : Rule ρ φ) (s : List κ) (w : Verdict) : Prop :=
  ∀ args, Yields E (parserOutcome Γ V args g s) w

theorem PlainYields.outcome (hΓ : ∀ m, Γ.Regular (Γ.type m))
    (htable : ∀ c, Γ.inTable (Γ.toInt c) = true) (hV : V.Nested E depth) {g : Rule ρ φ}
    (hg : Γ.Regular g) {s : List κ} {w : Verdict} (h : PlainYields Γ V E g s w) (args : Option ν) :
    Yields E (outcome Γ V args g s) w :=
  yields_outcome hV h
    ((h none).verdict_congr (congrFun (meaning_none_eq hΓ htable hg) s).symm) args

/-- An ordered choice ends in the verdict of its first alternative where that does not reject. -/
theorem PlainYields.either_first (hΓ : ∀ m, Γ.Regular (Γ.type m))
    (htable : ∀ c, Γ.inTable (Γ.toInt c) = true) (hV : V.Nested E depth) {first : Rule ρ φ}
    {rest : List (Rule ρ φ)} (hfirst : Γ.Regular first) {s : List κ} {w : Verdict}
    (h : PlainYields Γ V E first s w) (hw : w ≠ .reject) :
    PlainYields Γ V E (.either (first :: rest)) s w := by
  intro args
  rw [parserOutcome_eq]
  have hyield := h.outcome hΓ htable hV hfirst args
  have htest : ∀ r : ParseResult, r.verdict = w →
      (r.ok || decide (r.error = .incomplete)) = true := by
    intro r hv
    rcases r.verdict_cases with ⟨n, rfl⟩ | ⟨-, hi, -⟩ | ⟨-, -, hrej⟩
    · simp
    · simp [hi]
    · exact absurd (hv.symm.trans hrej) hw
  match rest with
  | [] => exact h args
  | [second] =>
      refine hyield.bind fun r hv => ?_
      simp only [htest r hv, if_true]
      exact Yields.pure hv
  | second :: third :: rest =>
      refine hyield.bind fun r hv => ?_
      simp only [htest r hv, if_true]
      exact Yields.pure hv

/-- It ends in the verdict of the other alternatives where the first one rejects. -/
theorem PlainYields.either_rest (hΓ : ∀ m, Γ.Regular (Γ.type m))
    (htable : ∀ c, Γ.inTable (Γ.toInt c) = true) (hV : V.Nested E depth) {first : Rule ρ φ}
    {rest : List (Rule ρ φ)} (hg : Γ.Regular (.either (first :: rest))) {s : List κ} {w : Verdict}
    (h : PlainYields Γ V E first s .reject) (hnil : rest = [] → w = .reject)
    (hrest : rest ≠ [] → PlainYields Γ V E (.either rest) s w) :
    PlainYields Γ V E (.either (first :: rest)) s w := by
  intro args
  rw [parserOutcome_eq]
  have hparts := Rule.eachOf_cons.1 hg.2
  have hyield := h.outcome hΓ htable hV hparts.1 args
  have htest : ∀ r : ParseResult, r.verdict = .reject →
      (r.ok || decide (r.error = .incomplete)) = false := by
    intro r hv
    rcases r.verdict_cases with ⟨n, rfl⟩ | ⟨-, -, hinc⟩ | ⟨hok, hinc, -⟩
    · simp at hv
    · rw [hinc] at hv
      simp at hv
    · simp [hok, hinc]
  match rest, hnil, hrest, hparts with
  | [], hnil, _, _ =>
      rw [hnil rfl]
      exact h args
  | [second], _, hrest, hparts =>
      have hsecond : PlainYields Γ V E second s w := by
        intro args
        have := hrest (by simp) args
        rwa [parserOutcome_eq] at this
      refine hyield.bind fun r hv => ?_
      simp only [htest r hv, Bool.false_eq_true, if_false]
      exact hsecond.outcome hΓ htable hV (Rule.eachOf_cons.1 hparts.2).1 args
  | second :: third :: rest, _, hrest, hparts =>
      refine hyield.bind fun r hv => ?_
      simp only [htest r hv, Bool.false_eq_true, if_false]
      exact (hrest (by simp)).outcome hΓ htable hV
        (show Γ.Regular (.either (second :: third :: rest)) from ⟨trivial, hparts.2⟩) args

/-- What a lookup table says, the choice it replaces says with every visitor. -/
theorem plainYields_of_tester (hΓ : ∀ m, Γ.Regular (Γ.type m))
    (htable : ∀ c, Γ.inTable (Γ.toInt c) = true) (hV : V.Nested E depth) {n : ℕ} {c : κ}
    {s : List κ}
    (hn : ∀ g, Γ.Regular g → ∀ st r st', parser Γ V n none g (c :: s) st = .ok (r, st') →
      PlainYields Γ V E g (c :: s) r.verdict)
    {gs : List (Rule ρ φ)} (hne : gs ≠ []) (hgs : ∀ g ∈ gs, g.SingleChar Γ) {st st' : σ}
    {entry : Bool} (h : charClassTester (parser Γ V n none) c gs st = .ok (entry, st')) :
    PlainYields Γ V E (.either gs) (c :: s) (if entry then .accept 1 else .reject) := by
  induction gs generalizing st with
  | nil => exact absurd rfl hne
  | cons first rest ih =>
      obtain ⟨r, st₁, hr, hrest⟩ := bind_ok_iff.1 h
      have hfirst := hgs first (by simp)
      have hone := parser_one V hΓ c [] n hfirst st r st₁ hr
      -- the test is the parse of a longer input too
      rw [parser_cons V hΓ c [] s n hfirst] at hr
      have hplain := hn first hfirst.1 st r st₁ hr
      rcases hone with rfl | ⟨hok, hinc⟩
      · cases hrest
        exact hplain.either_first hΓ htable hV hfirst.1 (by simp)
      · rw [ParseResult.verdict_eq_reject hok hinc] at hplain
        simp only [hok, Bool.false_eq_true, if_false] at hrest
        refine hplain.either_rest hΓ htable hV ?_ (fun hnil => ?_) fun hcons => ?_
        · exact ⟨trivial, Rule.eachOf_iff.2 fun g hg => (hgs g hg).1⟩
        · subst hnil
          cases hrest
          rfl
        · exact ih hcons (fun g hg => hgs g (by simp [hg])) hrest

/-- A lookup table in the place of an ordered choice. -/
private theorem parser_table_yields (hΓ : ∀ m, Γ.Regular (Γ.type m))
    (htable : ∀ c, Γ.inTable (Γ.toInt c) = true) (hV : V.Nested E depth) {gs : List (Rule ρ φ)}
    (hne : gs ≠ []) (hg : Γ.Regular (.either gs))
    (hsingle : Rule.isSingleCharRule Γ.single (.either gs) = true) {k : ℕ}
    (hk : ∀ g, Γ.Regular g → ∀ s st r st', parser Γ V k none g s st = .ok (r, st') →
      PlainYields Γ V E g s r.verdict) {s : List κ} {st st' : σ} {r : ParseResult}
    (h : parser Γ V (k + 1) none (.charClass gs) s st = .ok (r, st')) :
    PlainYields Γ V E (.either gs) s r.verdict := by
  have hall : ∀ g ∈ gs, g.SingleChar Γ := fun g hmem =>
    ⟨Rule.eachOf_iff.1 hg.2 g hmem, Rule.isSingleCharRule_trueForAll.1 hsingle g hmem⟩
  simp only [parser, Env.special, List.all_eq_true.2 fun g hg => (hall g hg).2, if_true] at h
  cases s with
  | nil =>
      cases h
      exact yields_nil hΓ hV ⟨hg, hsingle⟩
  | cons c s =>
      simp only [Env.operatorCall, htable, if_true] at h
      obtain ⟨entry, st₁, htest, hres⟩ := bind_ok_iff.1 h
      have hchoice := plainYields_of_tester hΓ htable hV (fun g hg => hk g hg (c :: s)) hne hall
        htest
      cases entry <;> (cases hres; exact hchoice)

/-- An ordered choice, split at its head. -/
private theorem parser_choice_yields (hΓ : ∀ m, Γ.Regular (Γ.type m))
    (htable : ∀ c, Γ.inTable (Γ.toInt c) = true) (hV : V.Nested E depth) {first : Rule ρ φ}
    {rest : List (Rule ρ φ)} (hg : Γ.Regular (.either (first :: rest))) {k : ℕ}
    (hk : ∀ g, Γ.Regular g → ∀ s st r st', parse Γ V k none g s st = .ok (r, st') →
      PlainYields Γ V E g s r.verdict) {s : List κ} {st st' : σ} {r : ParseResult}
    (h : parser Γ V (k + 1) none (.either [first, .either rest]) s st = .ok (r, st')) :
    PlainYields Γ V E (.either (first :: rest)) s r.verdict := by
  obtain ⟨r₁, st₁, hr₁, hrest⟩ := bind_ok_iff.1 h
  have hfirst := (Rule.eachOf_cons.1 hg.2).1
  have hplain := hk first hfirst s st r₁ st₁ hr₁
  rcases r₁.verdict_cases with ⟨m, rfl⟩ | ⟨hok, hinc, hv⟩ | ⟨hok, hinc, hv⟩
  · cases hrest
    exact hplain.either_first hΓ htable hV hfirst (by simp)
  · simp only [hinc, decide_true, Bool.or_true, if_true] at hrest
    cases hrest
    exact hplain.either_first hΓ htable hV hfirst (by simp [hv])
  · simp only [hok, hinc, decide_false, Bool.or_false, Bool.false_eq_true, if_false] at hrest
    rw [hv] at hplain
    refine hplain.either_rest hΓ htable hV hg (fun hnil => ?_) fun hcons => ?_
    · subst hnil
      obtain ⟨r', st₂, hr', hw⟩ := (yields_of_parse (E := fun _ => False) hrest st₁).exists_ok
      have hfail : meaning Γ V none (.either []) = .lift .fail :=
        meaning_none.trans ((parserMeaning_inherits rfl).trans (parserMeaning_failure rfl))
      have hmean : meaning Γ V none (.either []) s st₁ = .ok (r.verdict, st₂) :=
        Exec.verdict_ok_iff.2 ⟨r', hr', hw⟩
      rw [hfail, Meaning.lift_apply] at hmean
      exact (Prod.mk.inj (Except.ok.inj hmean)).1.symm
    · obtain ⟨second, rest, rfl⟩ := List.exists_cons_of_ne_nil hcons
      exact hk (.either (second :: rest)) ⟨trivial, (Rule.eachOf_cons.1 hg.2).2⟩ s st₁ r st' hrest

private theorem parse_parser_yields (hΓ : ∀ m, Γ.Regular (Γ.type m))
    (htable : ∀ c, Γ.inTable (Γ.toInt c) = true) (hV : V.Nested E depth) (n : ℕ) :
    (∀ g, Γ.Regular g → ∀ s st r st', parse Γ V n none g s st = .ok (r, st') →
        PlainYields Γ V E g s r.verdict) ∧
      ∀ g, Γ.Regular g → ∀ s st r st', parser Γ V n none g s st = .ok (r, st') →
        PlainYields Γ V E g s r.verdict := by
  induction n with
  | zero =>
      refine ⟨fun g _ s st r st' h => ?_, fun g _ s st r st' h => ?_⟩
      · cases h
      · cases h
  | succ n ih =>
      -- the calls inside run with less fuel
      obtain ⟨hp, hq⟩ := ih
      refine ⟨fun g hg s st r st' h => ?_, fun g hg s st r st' h args => ?_⟩
      · cases g with
        | either gs =>
            match gs, hg, h with
            | [], hg, _ => exact (Rule.Each.self hg).elim
            | first :: rest, hg, h =>
                simp only [parse, Env.optimized] at h
                cases n with
                | zero =>
                    split_ifs at h <;> cases h
                | succ k =>
                    split_ifs at h with hsingle
                    · exact parser_table_yields hΓ htable hV (by simp) hg hsingle
                        (fun g hg s st r st' h =>
                          hq g hg s st r st' ((parser_below Γ V (Nat.le_succ k) none g _).ok h)) h
                    · exact parser_choice_yields hΓ htable hV hg
                        (fun g hg s st r st' h =>
                          hp g hg s st r st' ((parse_below Γ V (Nat.le_succ k) none g _).ok h)) h
        | _ => exact hq _ hg s st r st' h
      · rw [parserOutcome_eq]
        have hpF : ∀ g, Γ.Regular g → ∀ s,
            Follows E (parse Γ V n none g s) (outcome Γ V args g s) := fun g hg s st r st' h =>
          (hp g hg s st r st' h).outcome hΓ htable hV hg args
        refine operatorCall_follows Γ (fun g hg s st r st' h => hq g hg s st r st' h args) hpF
          (fun g => parse_placed Γ V n none g) (fun g s => outcome_placed args g s) n
          (Env.Regular.calls hΓ hg) ?_ ?_ s st r st' h
        · exact fun rules _ g' _ s st r st' h => yields_of_plain h
        · intro g' hsp s
          rw [Env.special_eq_force hsp] at hg
          obtain ⟨g'', rfl⟩ := Env.Regular.exists_repeat hg
          exact parse_repeat_ne_reject n none g'' s

/-- **A parse without a visitor is followed by the parse with a finite nest of visitors.** -/
theorem parse_yields (hΓ : ∀ m, Γ.Regular (Γ.type m))
    (htable : ∀ c, Γ.inTable (Γ.toInt c) = true) (hV : V.Nested E depth) {n : ℕ} {g : Rule ρ φ}
    (hg : Γ.Regular g) {s : List κ} {st st' : σ} {r : ParseResult}
    (h : parse Γ V n none g s st = .ok (r, st')) (args : Option ν) :
    Yields E (outcome Γ V args g s) r.verdict :=
  ((parse_parser_yields hΓ htable hV n).1 g hg s st r st' h).outcome hΓ htable hV hg args

end Transparency

/-! ### Transparency -/

/-- Two results are of one class, and at one position unless they are hard failures. -/
structure Agrees (r r' : ParseResult) : Prop where
  ok : r.ok = r'.ok
  incomplete : r.error = .incomplete ↔ r'.error = .incomplete
  pos : r.ok = true ∨ r.error = .incomplete → r.pos = r'.pos

theorem Agrees.of_verdict {n : ℕ} {r r' : ParseResult} (hr : Placed n r) (hr' : Placed n r')
    (h : r'.verdict = r.verdict) : Agrees r r' := by
  rcases ParseResult.cases_of_verdict_eq h with ⟨m, rfl, rfl⟩ | ⟨hok, hok', hi, hi'⟩ |
    ⟨hok, hok', hi, hi'⟩
  · exact ⟨rfl, Iff.rfl, fun _ => rfl⟩
  · refine ⟨by rw [hok, hok'], by simp [hi, hi'], fun _ => ?_⟩
    rw [hr.incomplete hi, hr'.incomplete hi']
  · exact ⟨by rw [hok, hok'], by simp [hi, hi'], fun h => by simp [hok, hi] at h⟩

/-- `Parse<G>(s, visitor)` throws `e`. -/
def Throws (Γ : Env ρ φ κ) (V : Visitors ρ φ κ ν σ) (v : ν) (g : Rule ρ φ) (s : List κ) (st : σ)
    (e : Fault) : Prop :=
  e ≠ .outOfFuel ∧ ∃ n, parse Γ V n (some v) g s st = .error e

theorem throws_iff {Γ : Env ρ φ κ} {V : Visitors ρ φ κ ν σ} {v : ν} {g : Rule ρ φ} {s : List κ}
    {st : σ} {e : Fault} (he : e ≠ .outOfFuel) :
    Throws Γ V v g s st e ↔ outcome Γ V (some v) g s st = .error e := by
  constructor
  · rintro ⟨-, n, hn⟩
    rw [outcome, (parse_chain Γ V (some v) g s).limit_of_ne (n := n) (by simpa [hn] using he), hn]
  · intro h
    obtain ⟨N, hN⟩ := (parse_chain Γ V (some v) g s).eventually st
    exact ⟨he, N, (hN N (Nat.le_refl N)).trans h⟩

/-- A parse that returns throws nothing. -/
theorem Visits.not_throws {Γ : Env ρ φ κ} {V : Visitors ρ φ κ ν σ} {v : ν} {g : Rule ρ φ}
    {s : List κ} {st st' : σ} {r : ParseResult} {e : Fault} (h : Visits Γ V v g s st r st') :
    ¬ Throws Γ V v g s st e := by
  intro hthrows
  have herror := (throws_iff hthrows.1).1 hthrows
  rw [visits_iff.1 h] at herror
  cases herror

section Visits

variable {Γ : Env ρ φ κ} {V : Visitors ρ φ κ ν σ} (hΓ : ∀ m, Γ.Regular (Γ.type m))
  (htable : ∀ c, Γ.inTable (Γ.toInt c) = true) {g : Rule ρ φ} (hg : Γ.Regular g) {s : List κ}
  {st : σ}
include hΓ htable hg

/-- **A parse that returns with visitors returns without them**, and the two results agree. -/
theorem parses_of_parse {n : ℕ} {args : Option ν} {r' : ParseResult} {st' : σ}
    (h : parse Γ V n args g s st = .ok (r', st')) : ∃ r, Parses Γ g s r ∧ Agrees r r' := by
  obtain ⟨r, st₁, hr, hv⟩ :=
    (parse_follows (E := fun _ => False) hΓ htable n args hg s st r' st' h st).exists_ok
  obtain ⟨m, hm⟩ := outcome_ok_iff.1 hr
  rw [parse_none_eq, lift_ok_iff] at hm
  have hparses : Parses Γ g s r := ⟨m, hm.1⟩
  exact ⟨r, hparses, .of_verdict hparses.placed (parse_placed Γ V n args g s st r' st' h) hv.symm⟩

/-- **A parse that returns without visitors returns with a finite nest of them**, unless one of them
throws. -/
theorem Parses.visits_or_throws {E : Fault → Prop} {depth : ν → Rule ρ φ → ℕ}
    (hE : ¬ E .outOfFuel) (hV : V.Nested E depth) {r : ParseResult} (h : Parses Γ g s r) (v : ν) :
    (∃ r' st', Visits Γ V v g s st r' st') ∨ ∃ e, E e ∧ Throws Γ V v g s st e := by
  obtain ⟨n, hn⟩ := h
  have hn' : parse Γ V n none g s st = .ok (r, st) := by
    rw [parse_none_eq, lift_ok_iff]
    exact ⟨hn, rfl⟩
  have hends := parse_yields hΓ htable hV hg hn' (some v) st
  generalize ho : outcome Γ V (some v) g s st = o at hends
  cases hends with
  | value _ => exact .inl ⟨_, _, visits_iff.2 ho⟩
  | fault he => exact .inr ⟨_, he, (throws_iff fun h => hE (h ▸ he)).2 ho⟩

end Visits

/-! ### The grammars of the library -/

section

open Uri.Grammar Http.Grammar Json.Grammar

/-- The grammars are regular. -/
theorem regular_type (toInt : κ → ℤ) (inTable : ℤ → Bool) (m : Name) :
    (environment toInt inTable).Regular ((environment toInt inTable).type m) := by
  change Rule.Each (Rule.RegularHead _) (Name.type m)
  cases m <;>
    simp [Name.type, Rule.RegularHead, Rule.Each, param_type, userinfo_type, query_type,
      fragment_type, scheme_type, CRLF_type, LWS_type, comment_type, field_value_type,
      field_name_type, message_header_type, HTTP_major_version_type, HTTP_minor_version_type,
      extension_method_type, Star_type, pchar, unreserved, escaped, mark, alphanum, hex, uric,
      reserved, alpha, Uri.Grammar.digit, CRLF, LWS, ctext, TEXT, CTLs, quoted_pair, comment,
      field_content, Http.Grammar.token, separators, quoted_string, qdtext, Glue, field_name,
      field_value, DIGIT, Value_type, Json.Grammar.String, StringContents, control_char, hex_digit,
      Number, Json.Grammar.digit, digit_1_9, Object, Property, Value, Json.Grammar.Array, Boolean,
      tokens.True, tokens.False, Null, tokens.Null]

end

end Hittop
