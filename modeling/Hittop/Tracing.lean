/-
**What a trace visitor writes.**

`BasicTraceVisitor<BaseRule>` writes a line when the parse of a rule that has a name begins and
another one when it ends, indented by how many such rules the parse is inside of, and hands
`BasicTraceVisitor<Rule>` to the rules inside.  What it writes is a nest: the lines of a rule are
around those of the rules inside, two columns to the left of them, and the second of the two says
what the rule would have come to at that place without any visitor.

The argument is a frame rule for visitors: what every body does to the state, a parse does.

Main definitions:

* `Hittop.Exec.Carries`, `Hittop.CarriesOn` — the state a run leaves is related to the one it starts
  in;
* `Hittop.tracer` — `BasicTraceVisitor`, over the lines written and the nesting;
* `Hittop.Traced` — lines that are a nest of rules of a parse.

Main results:

* `Hittop.parse_carries` — a parse keeps the relation that the bodies of its visitors keep;
* `Hittop.trace_well_nested` — what is written about a parse.
-/

import Hittop.Transparency

set_option relaxedAutoImplicit false
set_option autoImplicit false

namespace Hittop

namespace Exec

variable {σ α β : Type}

/-! ### What a run does to the state -/

/-- Every run that returns goes from a state to a related one. -/
def Carries (R : σ → σ → Prop) (x : Exec σ α) : Prop := ∀ st a st', x st = .ok (a, st') → R st st'

variable {R : σ → σ → Prop}

theorem Carries.pure [Std.Refl R] (a : α) : Carries R (Pure.pure a : Exec σ α) := by
  intro st b st' h
  cases h
  exact refl_of R st

theorem Carries.fault (e : Fault) : Carries R (Exec.fault e : Exec σ α) := by
  intro st b st' h
  cases h

theorem Carries.bind [IsTrans σ R] {x : Exec σ α} {f : α → Exec σ β} (hx : Carries R x)
    (hf : ∀ a, Carries R (f a)) : Carries R (x >>= f) := by
  intro st b st' h
  obtain ⟨a, st₁, ha, hb⟩ := bind_ok_iff.1 h
  exact trans_of R (hx st a st₁ ha) (hf a st₁ b st' hb)

theorem Carries.ite {p : Prop} [Decidable p] {x y : Exec σ α} (hx : Carries R x)
    (hy : Carries R y) : Carries R (if p then x else y) := by
  by_cases hp : p
  · simpa [hp] using hx
  · simpa [hp] using hy

/-- A run without a visitor leaves the state alone. -/
theorem Carries.lift [Std.Refl R] (x : Exec Unit α) : Carries R (Exec.lift x : Exec σ α) := by
  intro st a st' h
  obtain ⟨-, rfl⟩ := Exec.lift_ok_iff.1 h
  exact refl_of R _

end Exec

open Exec

variable {ρ φ κ ν σ : Type}

/-! ### What a parse does to the state -/

section Carries

variable {R : σ → σ → Prop} {whole : List κ}

/-- A parser keeps a relation on every rest of the input. -/
def CarriesOn (R : σ → σ → Prop) (whole : List κ) (p : List κ → Exec σ ParseResult) : Prop :=
  ∀ s, s <:+ whole → Carries R (p s)

theorem CarriesOn.drop {p : List κ → Exec σ ParseResult} (hp : CarriesOn R whole p) {s : List κ}
    (hs : s <:+ whole) (k : ℕ) : Carries R (p (s.drop k)) :=
  hp _ ((List.drop_suffix k s).trans hs)

variable [IsPreorder σ R]

theorem repeatLoop_carries {p : List κ → Exec σ ParseResult} (hp : CarriesOn R whole p) (k : ℕ) :
    CarriesOn R whole (repeatLoop p k) := by
  induction k with
  | zero => exact fun s _ => Carries.fault _
  | succ k ih =>
      intro s hs
      refine (hp s hs).bind fun r => Carries.ite (Carries.ite (Carries.pure _) ?_) ?_
      · exact (ih.drop hs _).bind fun _ => Carries.pure _
      · exact Carries.ite (Carries.pure _) (Carries.pure _)

theorem climb_carries {p : List κ → Exec σ ParseResult} (hp : CarriesOn R whole p) (size : ℕ)
    {s : List κ} (hs : s <:+ whole) (k : ℕ) (prior : List ℕ) :
    Carries R (climb p size s k prior) := by
  induction k generalizing prior with
  | zero => exact Carries.fault _
  | succ k ih =>
      cases prior with
      | nil => exact Carries.fault _
      | cons back older =>
          refine (hp.drop hs back).bind fun r => Carries.ite (Carries.ite (Carries.pure _) ?_) ?_
          · exact ih _
          · exact Carries.ite (Carries.pure _) (Carries.pure _)

theorem fallBack_carries {p : List κ → Exec σ ParseResult} (hp : CarriesOn R whole p) {s : List κ}
    (hs : s <:+ whole) : ∀ prior : List ℕ, Carries R (fallBack p s prior)
  | [] => Carries.fault _
  | [back] => (hp.drop hs back).bind fun _ => Carries.pure _
  | back :: older :: rest => (hp.drop hs back).bind fun _ =>
      Carries.ite (Carries.pure _) (Carries.ite (Carries.pure _)
        (fallBack_carries hp hs (older :: rest)))

theorem charClassTester_carries {p : Rule ρ φ → List κ → Exec σ ParseResult}
    (hp : ∀ g s, Carries R (p g s)) (c : κ) (rules : List (Rule ρ φ)) :
    Carries R (charClassTester p c rules) := by
  induction rules with
  | nil => exact Carries.pure _
  | cons first rest ih => exact (hp first [c]).bind fun _ => Carries.ite (Carries.pure _) ih

/-- `operator()` keeps a relation if the parsers it calls do. -/
theorem Env.operatorCall_carries (Γ : Env ρ φ κ) {L : Rule ρ φ → Prop}
    {i p t : Rule ρ φ → List κ → Exec σ ParseResult} (hi : ∀ g, L g → CarriesOn R whole (i g))
    (hp : ∀ g, L g → CarriesOn R whole (p g)) (ht : ∀ g s, Carries R (t g s)) (k : ℕ)
    {sp : Special ρ φ} (hL : ∀ g ∈ Γ.calls sp, L g) :
    CarriesOn R whole (Γ.operatorCall i p t k sp) := by
  intro s hs
  cases sp with
  | inherits base => exact hi base (hL _ (by simp [calls])) s hs
  | forwardRef m => exact hi _ (hL _ (by simp [calls])) s hs
  | success | failure | token => exact Carries.pure _
  | anyChar => cases s <;> exact Carries.pure _
  | literal | charFilter =>
      cases s with
      | nil => exact Carries.pure _
      | cons c s => exact Carries.ite (Carries.pure _) (Carries.pure _)
  | charClass rules =>
      cases s with
      | nil => exact Carries.pure _
      | cons c s =>
          refine Carries.ite ?_ (Carries.fault _)
          exact (charClassTester_carries ht c rules).bind fun _ =>
            Carries.ite (Carries.pure _) (Carries.pure _)
  | concat first second =>
      refine (hp first (hL _ (by simp [calls])) s hs).bind fun r => Carries.ite ?_ (Carries.pure _)
      exact ((hp second (hL _ (by simp [calls]))).drop hs _).bind fun _ => Carries.pure _
  | either first second =>
      exact (hp first (hL _ (by simp [calls])) s hs).bind fun r =>
        Carries.ite (Carries.pure _) (hp second (hL _ (by simp [calls])) s hs)
  | unless_ reject default =>
      refine (hp reject (hL _ (by simp [calls])) s hs).bind fun r => ?_
      exact Carries.ite (Carries.pure _) (Carries.ite (Carries.pure _)
        (hp default (hL _ (by simp [calls])) s hs))
  | repeat_ g => exact repeatLoop_carries (hp g (hL _ (by simp [calls]))) k s hs
  | repeatAndThen repeated rest size =>
      refine (climb_carries (hp repeated (hL _ (by simp [calls]))) size hs k _).bind fun out => ?_
      cases out with
      | inl r => exact Carries.pure _
      | inr prior => exact fallBack_carries (hp rest (hL _ (by simp [calls]))) hs prior
  | force g => exact (hp g (hL _ (by simp [calls])) s hs).bind fun _ => Carries.pure _
  | undefined => exact Carries.fault _

variable {Γ : Env ρ φ κ} {V : Visitors ρ φ κ ν σ} {L : Rule ρ φ → Prop}

/-- **A parse keeps the relation that the bodies of its visitors keep**, each of them if the calls
of its runner do. -/
theorem parse_carries (hL : ∀ g, L g → ∀ g' ∈ Γ.calls (Γ.special g), L g')
    (hV : ∀ n v g body s, V.operator v g = some body → L g → s <:+ whole →
      (∀ args, Carries R (parse Γ V n args g s)) → ∀ st result st',
        runBody (fun args => parse Γ V n args g s) s (body st) none st = .ok (result, st') →
          R st st') (n : ℕ) :
    (∀ args g, L g → CarriesOn R whole (parse Γ V n args g)) ∧
      ∀ args g, L g → CarriesOn R whole (parser Γ V n args g) := by
  induction n with
  | zero => exact ⟨fun _ _ _ _ _ => Carries.fault _, fun _ _ _ _ _ => Carries.fault _⟩
  | succ n ih =>
      obtain ⟨hp, hq⟩ := ih
      have hnone (g : Rule ρ φ) (s : List κ) : Carries R (parse Γ V n none g s) := by
        rw [parse_none_eq]
        exact Carries.lift _
      have htable (g : Rule ρ φ) (s : List κ) : Carries R (parser Γ V n none g s) := by
        rw [parser_none_eq]
        exact Carries.lift _
      refine ⟨fun args g hg s hs => ?_, fun args g hg => ?_⟩
      · cases args with
        | none => exact htable _ s
        | some v =>
            simp only [parse]
            cases hop : V.operator v g with
            | none => exact hq _ g hg s hs
            | some body =>
                intro st r st' h
                obtain ⟨result, st₁, hbody, hconsume⟩ := bind_ok_iff.1 h
                refine trans_of R (hV n v g body s hop hg hs (fun args => hp args g hg s hs)
                  st result st₁ hbody) ?_
                cases result with
                | none => exact hnone g s st₁ r st' hconsume
                | some r₁ => exact Carries.pure r₁ st₁ r st' hconsume
      · exact Γ.operatorCall_carries (hq args) (hp args) htable n (hL g hg)

end Carries

/-! ### The trace visitor -/

/-- `ParseErrorCategory::message()`. -/
def ParseError.message : ParseError → String
  | .none => "success"
  | .incomplete => "incomplete"
  | .badChar => "unexpected character"
  | .failedCondition => "exceptional case encountered"
  | .unknown => "unknown error"

/-- What the copies of a trace visitor share: the lines that have been written to `*out`, and
`*nesting`. -/
structure Trace where
  out : List String
  nesting : ℕ
  deriving DecidableEq, Repr

section Tracer

variable (Γ : Env ρ φ κ) (rangeToString : List κ → String)

/-- `std::string(nesting, ' ')`. -/
def indent (nesting : ℕ) : String := String.ofList (List.replicate nesting ' ')

/-- The line that is written before a rule is parsed. -/
def enterLine (nesting : ℕ) (typeName : String) : String := indent nesting ++ typeName ++ " enter"

/-- A text of one character, with its value. -/
def exitFragment : List κ → String
  | [c] => " '" ++ rangeToString [c] ++ "' (" ++ toString (Γ.toInt c) ++ ")"
  | _ => ""

/-- The line that is written after a rule has been parsed. -/
def exitLine (nesting : ℕ) (typeName : String) (result : RangeResult κ) : String :=
  indent nesting ++ typeName ++ " exit (result=" ++
    (if result.ok then "ok" else result.error.message) ++ ")" ++
      exitFragment Γ rangeToString result.get

variable [DecidableEq ρ] [DecidableEq φ] (translate : Rule ρ φ → Option String)

/-- `BasicTraceVisitor<BaseRule>`, by its `BaseRule`, which `TraceVisitor` has none of: it is
callable with every other rule.  `recurse<Rule>()` shares `out`, `nesting` and `translate`. -/
def tracer : Visitors ρ φ κ (Option (Rule ρ φ)) Trace where
  operator baseRule rule :=
    if baseRule = some rule then none
    else some fun st =>
      match translate rule with
      | none => .run false (some (some rule)) st fun _ st => .done st
      | some typeName =>
          .run false (some (some rule))
            ⟨st.out ++ [enterLine st.nesting typeName], st.nesting + 2⟩ fun result st' =>
              .done ⟨st'.out ++ [exitLine Γ rangeToString st.nesting typeName result],
                st'.nesting - 2⟩

/-- **Lines about the parse of rules on the rests of `whole`.**  Each rule that has a name has a
line before those of the rules inside and one after them, which reports a result that agrees with
that of the plain parse. -/
inductive Traced (whole : List κ) : ℕ → List String → Prop
  | nil {nesting : ℕ} : Traced whole nesting []
  | rule {nesting : ℕ} {rule : Rule ρ φ} {typeName : String} {s : List κ} {r r' : ParseResult}
      {inner rest : List String} :
      translate rule = some typeName → s <:+ whole → Parses Γ rule s r → Agrees r r' →
      Traced whole (nesting + 2) inner → Traced whole nesting rest →
      Traced whole nesting (enterLine nesting typeName :: (inner ++
        exitLine Γ rangeToString nesting typeName ⟨s.take r'.pos, r'.error⟩ :: rest))

end Tracer

section Traced

variable {Γ : Env ρ φ κ} {rangeToString : List κ → String} {translate : Rule ρ φ → Option String}
  {whole : List κ}

theorem Traced.append {nesting : ℕ} {lines more : List String}
    (h : Traced Γ rangeToString translate whole nesting lines)
    (hmore : Traced Γ rangeToString translate whole nesting more) :
    Traced Γ rangeToString translate whole nesting (lines ++ more) := by
  induction h with
  | nil => exact hmore
  | rule htranslate hs hparses hagrees hinner _ _ ih =>
      have h := Traced.rule htranslate hs hparses hagrees hinner (ih hmore)
      simpa using h

variable (Γ rangeToString translate whole) in
/-- A nest of lines has been written, and the nesting is what it was. -/
def Traces (st st' : Trace) : Prop :=
  st'.nesting = st.nesting ∧
    ∃ lines, st'.out = st.out ++ lines ∧
      Traced Γ rangeToString translate whole st.nesting lines

instance : IsPreorder Trace (Traces Γ rangeToString translate whole) where
  refl st := ⟨rfl, [], (List.append_nil _).symm, .nil⟩
  trans st₁ st₂ st₃ h h' := by
    obtain ⟨hnesting, lines, hout, htraced⟩ := h
    obtain ⟨hnesting', lines', hout', htraced'⟩ := h'
    refine ⟨hnesting'.trans hnesting, lines ++ lines', ?_, htraced.append (hnesting ▸ htraced')⟩
    rw [hout', hout, List.append_assoc]

/-- The lines that are written about a rule that has a name, if those of the rules inside are a
nest. -/
theorem traces_named {rule : Rule ρ φ} {typeName : String} {s : List κ} {r r' : ParseResult}
    {st st₁ : Trace} (htranslate : translate rule = some typeName) (hs : s <:+ whole)
    (hparses : Parses Γ rule s r) (hagrees : Agrees r r')
    (h : Traces Γ rangeToString translate whole
      ⟨st.out ++ [enterLine st.nesting typeName], st.nesting + 2⟩ st₁) :
    Traces Γ rangeToString translate whole st
      ⟨st₁.out ++ [exitLine Γ rangeToString st.nesting typeName ⟨s.take r'.pos, r'.error⟩],
        st₁.nesting - 2⟩ := by
  obtain ⟨hnesting, inner, hout, htraced⟩ := h
  refine ⟨by rw [hnesting, Nat.add_sub_cancel], _, ?_,
    .rule htranslate hs hparses hagrees htraced .nil⟩
  rw [hout, List.append_assoc, List.append_assoc, List.singleton_append]

variable [DecidableEq ρ] [DecidableEq φ]

/-- A trace visitor hands on one that is not called with the same rule, and throws nothing. -/
theorem tracer_nested : (tracer Γ rangeToString translate).Nested (fun _ => False)
    fun baseRule rule => if baseRule = some rule then 0 else 1 := by
  intro baseRule rule body st h
  by_cases hbase : baseRule = some rule
  · simp [tracer, hbase] at h
  · simp only [tracer, hbase, if_false, Option.some.injEq] at h
    subst h
    cases translate rule <;> simp [Body.Calls, hbase]

section Body

variable {runner : Option (Option (Rule ρ φ)) → Exec Trace ParseResult}
  {baseRule : Option (Rule ρ φ)} {rule : Rule ρ φ} {body : Trace → Body κ (Option (Rule ρ φ)) Trace}
  {s : List κ} {st st' : Trace} {result : Option ParseResult}

/-- Nothing is written about a rule that has no name. -/
theorem tracer_unnamed (hop : (tracer Γ rangeToString translate).operator baseRule rule = some body)
    (htranslate : translate rule = none)
    (h : runBody runner s (body st) none st = .ok (result, st')) :
    ∃ r', result = some r' ∧ runner (some (some rule)) st = .ok (r', st') := by
  by_cases hbase : baseRule = some rule
  · simp [tracer, hbase] at hop
  · simp only [tracer, hbase, if_false, Option.some.injEq] at hop
    subst hop
    simp only [htranslate, runBody] at h
    cases hrun : runner (some (some rule)) st with
    | error e => simp [hrun] at h
    | ok q =>
        obtain ⟨r', st₁⟩ := q
        simp only [hrun, Bool.false_eq_true, if_false] at h
        cases h
        exact ⟨r', rfl, rfl⟩

/-- The lines about a rule that has a name are around those of the rules inside. -/
theorem tracer_named {typeName : String}
    (hop : (tracer Γ rangeToString translate).operator baseRule rule = some body)
    (htranslate : translate rule = some typeName)
    (h : runBody runner s (body st) none st = .ok (result, st')) :
    ∃ r' st₁, result = some r' ∧ runner (some (some rule))
        ⟨st.out ++ [enterLine st.nesting typeName], st.nesting + 2⟩ = .ok (r', st₁) ∧
      st' = ⟨st₁.out ++ [exitLine Γ rangeToString st.nesting typeName ⟨s.take r'.pos, r'.error⟩],
        st₁.nesting - 2⟩ := by
  by_cases hbase : baseRule = some rule
  · simp [tracer, hbase] at hop
  · simp only [tracer, hbase, if_false, Option.some.injEq] at hop
    subst hop
    simp only [htranslate, runBody] at h
    cases hrun : runner (some (some rule))
        ⟨st.out ++ [enterLine st.nesting typeName], st.nesting + 2⟩ with
    | error e => simp [hrun] at h
    | ok q =>
        obtain ⟨r', st₁⟩ := q
        simp only [hrun, Bool.false_eq_true, if_false] at h
        cases h
        exact ⟨r', st₁, rfl, rfl, rfl⟩

end Body

/-- The parse of a rule that has a name, by that of its own tracer. -/
theorem parse_named {n : ℕ} {baseRule : Option (Rule ρ φ)} {g : Rule ρ φ} {typeName : String}
    {s : List κ} {st st' : Trace} {r' : ParseResult} (hbase : baseRule ≠ some g)
    (htranslate : translate g = some typeName)
    (h : parse Γ (tracer Γ rangeToString translate) n (some baseRule) g s st = .ok (r', st')) :
    ∃ m st₁, parse Γ (tracer Γ rangeToString translate) m (some (some g)) g s
        ⟨st.out ++ [enterLine st.nesting typeName], st.nesting + 2⟩ = .ok (r', st₁) ∧
      st' = ⟨st₁.out ++ [exitLine Γ rangeToString st.nesting typeName ⟨s.take r'.pos, r'.error⟩],
        st₁.nesting - 2⟩ := by
  cases n with
  | zero => cases h
  | succ n =>
      obtain ⟨body, hop⟩ : ∃ body,
          (tracer Γ rangeToString translate).operator baseRule g = some body :=
        ⟨_, if_neg hbase⟩
      simp only [parse, hop] at h
      obtain ⟨result, st₂, hbody, hconsume⟩ := bind_ok_iff.1 h
      obtain ⟨r₁, st₁, rfl, hrun, rfl⟩ := tracer_named hop htranslate hbody
      cases hconsume
      exact ⟨n, st₁, hrun, rfl⟩

variable (hΓ : ∀ m, Γ.Regular (Γ.type m)) (htable : ∀ c, Γ.inTable (Γ.toInt c) = true)
include hΓ htable

/-- Every parse with a trace visitor writes a nest. -/
theorem parse_traces (n : ℕ) (args : Option (Option (Rule ρ φ))) {g : Rule ρ φ}
    (hg : Γ.Regular g) :
    CarriesOn (Traces Γ rangeToString translate whole) whole
      (parse Γ (tracer Γ rangeToString translate) n args g) := by
  refine (parse_carries (L := Γ.Regular) (fun g hg => Env.Regular.calls hΓ hg) ?_ n).1 args g hg
  intro n baseRule rule body s hop hrule hs hparse st result st' hbody
  cases htranslate : translate rule with
  | none =>
      obtain ⟨r', -, hrun⟩ := tracer_unnamed hop htranslate hbody
      exact hparse _ st r' st' hrun
  | some typeName =>
      obtain ⟨r', st₁, -, hrun, rfl⟩ := tracer_named hop htranslate hbody
      obtain ⟨r, hparses, hagrees⟩ := parses_of_parse hΓ htable hrule hrun
      exact traces_named htranslate hs hparses hagrees (hparse _ _ r' st₁ hrun)

end Traced

/-- The lines about the parse of a scheme, within which a letter is tried twice. -/
example : parse octets
    (tracer octets (fun text => String.ofList (text.map fun c => Char.ofNat c.toNat)) fun rule =>
      if rule = Uri.Grammar.scheme then some "scheme"
      else if rule = Uri.Grammar.alpha then some "alpha" else none) 40 (some none)
    Uri.Grammar.scheme (bytes "a:") ⟨[], 0⟩ = .ok (.success 1,
      ⟨["scheme enter", "  alpha enter", "  alpha exit (result=ok) 'a' (97)", "  alpha enter",
        "  alpha exit (result=unexpected character)", "scheme exit (result=ok) 'a' (97)"], 0⟩) := by
  decide +kernel

end Hittop
