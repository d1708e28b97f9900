/-
**Single-character rules.**

`IsSingleCharRule` promises that a rule looks at one character: its answer on a nonempty range
depends on the first character only, it accepts exactly that character or nothing, and it asks for
more on the empty range.  The promise holds of the plain parser of every rule with the trait, except
under a `Force`, which accepts an empty range; so it is proved for regular rules, where a `Force` is
applied to a `Repeat` only.

Main definitions:

* `Hittop.Env.Regular` — every `Force` is applied to a `Repeat`, and no `Either` is empty;
* `Hittop.Special.SingleChar` — the parsers single-character rules select.

Main results:

* `Hittop.special_singleChar` — a regular single-character rule selects one of those;
* `Hittop.parse_cons`, `Hittop.parser_cons` — only the first character matters;
* `Hittop.parser_one`, `Hittop.parse_one` — one character is accepted, or none.
-/

import Hittop.Bounds
import Hittop.Shape

set_option relaxedAutoImplicit false
set_option autoImplicit false

namespace Hittop

open Exec

variable {ρ φ κ ν σ : Type}

/-! ### Regular rules -/

/-- What regularity asks of one rule.  A `CharClass` of other rules than single-character ones does
not compile. -/
def Rule.RegularHead (single : ρ → Bool) : Rule ρ φ → Prop
  | .force (.repeat_ _) => True
  | .force _ => False
  | .either [] => False
  | .charClass rules => ∀ g ∈ rules, g.isSingleCharRule single = true
  | _ => True

/-- Every `Force` in the rule is applied to a `Repeat`, and no `Either` is empty. -/
def Env.Regular (Γ : Env ρ φ κ) : Rule ρ φ → Prop := Rule.Each (Rule.RegularHead Γ.single)

instance (single : ρ → Bool) (g : Rule ρ φ) : Decidable (g.RegularHead single) := by
  unfold Rule.RegularHead
  split <;> infer_instance

instance (Γ : Env ρ φ κ) : DecidablePred Γ.Regular :=
  fun g => inferInstanceAs (Decidable (g.Each (Rule.RegularHead Γ.single)))

theorem regular_hereditary (single : ρ → Bool) :
    Hereditary (Rule.RegularHead single (φ := φ)) where
  success := trivial
  failure := trivial
  literal _ := trivial
  concat _ := trivial
  either _ _ := trivial
  opt _ := trivial
  repeat_ _ := trivial
  exactly _ _ := trivial
  atMost _ _ := trivial
  impliedDelim _ _ := trivial
  trim _ _ _ := ⟨trivial, trivial⟩

namespace Env.Regular

variable {Γ : Env ρ φ κ} {g : Rule ρ φ}

theorem calls (hΓ : ∀ m, Γ.Regular (Γ.type m)) (hg : Γ.Regular g) :
    ∀ g' ∈ Γ.calls (Γ.special g), Γ.Regular g' :=
  Rule.Each.calls (regular_hereditary _) (fun m _ => hΓ m) hg

theorem exists_repeat (h : Γ.Regular (.force g)) : ∃ g', g = .repeat_ g' := by
  have hq := Rule.Each.self h
  cases g <;> simp_all [Rule.RegularHead]

theorem charClass {rules : List (Rule ρ φ)} (hg : Γ.Regular g)
    (h : Γ.special g = .charClass rules) :
    ∀ g' ∈ rules, Γ.Regular g' ∧ g'.isSingleCharRule Γ.single = true := by
  obtain ⟨rfl, hsingle⟩ := Env.special_eq_charClass h
  exact fun g' hg' => ⟨Rule.eachOf_iff.1 hg.2 g' hg', hsingle g' hg'⟩

end Env.Regular

/-! ### The parsers of single-character rules -/

/-- The parsers that single-character rules select, `S` being what is known of the rules they
call. -/
def Special.SingleChar (Γ : Env ρ φ κ) (S : Rule ρ φ → Prop) : Special ρ φ → Prop
  | .inherits base => S base
  | .forwardRef m => S (Γ.type m)
  | .anyChar | .literal _ | .charFilter _ | .charClass _ | .undefined => True
  | .either first second => S first ∧ S second
  | .unless_ r d => S r ∧ S d
  | _ => False

/-- A regular rule with the trait. -/
def Rule.SingleChar (Γ : Env ρ φ κ) (g : Rule ρ φ) : Prop :=
  Γ.Regular g ∧ g.isSingleCharRule Γ.single = true

theorem special_singleChar {Γ : Env ρ φ κ} (hΓ : ∀ m, Γ.Regular (Γ.type m)) {g : Rule ρ φ}
    (h : g.SingleChar Γ) : (Γ.special g).SingleChar Γ (Rule.SingleChar Γ) := by
  obtain ⟨hreg, hsingle⟩ := h
  cases g with
  | literal chs =>
      rcases chs with _ | ⟨ch, _ | ⟨ch', rest⟩⟩
      · simp [Rule.isSingleCharRule] at hsingle
      · trivial
      · simp [Rule.isSingleCharRule] at hsingle
  | charFilter | anyChar => trivial
  | charClass rules =>
      simp only [Env.special]
      split <;> trivial
  | either gs =>
      have hall : ∀ g ∈ gs, g.SingleChar Γ := fun g hg =>
        ⟨Rule.eachOf_iff.1 hreg.2 g hg, Rule.isSingleCharRule_trueForAll.1 hsingle g hg⟩
      rcases gs with _ | ⟨first, _ | ⟨second, _ | ⟨third, rest⟩⟩⟩
      · exact (Rule.Each.self hreg).elim
      · exact hall first (by simp)
      · exact ⟨hall first (by simp), hall second (by simp)⟩
      · refine ⟨hall first (by simp), ⟨trivial, (Rule.eachOf_cons.1 hreg.2).2⟩, ?_⟩
        exact Rule.isSingleCharRule_trueForAll.2 fun g hg =>
          (hall g (List.mem_cons_of_mem _ hg)).2
  | unless_ r d =>
      simp only [Rule.isSingleCharRule, Bool.and_eq_true] at hsingle
      exact ⟨⟨hreg.2.1, hsingle.1⟩, hreg.2.2, hsingle.2⟩
  | force g =>
      obtain ⟨g', rfl⟩ := hreg.exists_repeat
      simp [Rule.isSingleCharRule] at hsingle
  | forwardRef m => exact ⟨hΓ m, (Γ.single_type m).trans hsingle⟩
  | _ => simp [Rule.isSingleCharRule] at hsingle

/-- `OptimizedParser` replaces a single-character rule by one. -/
theorem Rule.SingleChar.optimized {Γ : Env ρ φ κ} {g : Rule ρ φ} (h : g.SingleChar Γ) :
    (Γ.optimized g).SingleChar Γ := by
  obtain ⟨hreg, hsingle⟩ := h
  cases g with
  | either gs =>
      rcases gs with _ | ⟨first, rest⟩
      · exact (Rule.Each.self hreg).elim
      · simp only [Env.optimized, hsingle, if_true]
        exact ⟨⟨Rule.isSingleCharRule_trueForAll.1 hsingle, hreg.2⟩, rfl⟩
  | _ => exact ⟨hreg, hsingle⟩

/-! ### One character decides -/

/-- A result on a nonempty range that accepts its first character or rejects it. -/
def OneChar (r : ParseResult) : Prop := r = .success 1 ∨ (r.ok = false ∧ r.error ≠ .incomplete)

section

variable {Γ : Env ρ φ κ} (V : Visitors ρ φ κ ν σ) (hΓ : ∀ m, Γ.Regular (Γ.type m))

theorem operatorCall_cons {S : Rule ρ φ → Prop}
    {i p t : Rule ρ φ → List κ → Exec σ ParseResult} {c : κ} {s s' : List κ}
    (hi : ∀ g, S g → i g (c :: s) = i g (c :: s')) (hp : ∀ g, S g → p g (c :: s) = p g (c :: s'))
    (k : ℕ) {sp : Special ρ φ} (hS : sp.SingleChar Γ S) :
    Γ.operatorCall i p t k sp (c :: s) = Γ.operatorCall i p t k sp (c :: s') := by
  cases sp with
  | inherits base => exact hi _ hS
  | forwardRef m => exact hi _ hS
  | anyChar | literal _ | charFilter _ | charClass _ | undefined => rfl
  | either first second => simp only [Env.operatorCall, hp first hS.1, hp second hS.2]
  | unless_ r d => simp only [Env.operatorCall, hp r hS.1, hp d hS.2]
  | _ => exact hS.elim

theorem operatorCall_one {S : Rule ρ φ → Prop}
    {i p t : Rule ρ φ → List κ → Exec σ ParseResult} {c : κ} {s : List κ}
    (hi : ∀ g, S g → Ensures (i g (c :: s)) OneChar)
    (hp : ∀ g, S g → Ensures (p g (c :: s)) OneChar) (k : ℕ) {sp : Special ρ φ}
    (hS : sp.SingleChar Γ S) : Ensures (Γ.operatorCall i p t k sp (c :: s)) OneChar := by
  have hyes : Ensures (Pure.pure (.success 1) : Exec σ ParseResult) OneChar :=
    Ensures.pure (Or.inl rfl)
  have hno : Ensures (Pure.pure ⟨0, .badChar⟩ : Exec σ ParseResult) OneChar :=
    Ensures.pure (Or.inr ⟨by simp, by simp⟩)
  cases sp with
  | inherits base => exact hi _ hS
  | forwardRef m => exact hi _ hS
  | anyChar => exact hyes
  | literal ch => exact Ensures.ite (fun _ => hyes) fun _ => hno
  | charFilter f => exact Ensures.ite (fun _ => hyes) fun _ => hno
  | charClass rules =>
      refine Ensures.ite (fun _ => ?_) fun _ => Ensures.fault _
      exact (Ensures.true _).bind fun entry _ => Ensures.ite (fun _ => hyes) fun _ => hno
  | undefined => exact Ensures.fault _
  | either first second =>
      exact (hp first hS.1).bind fun r hr => Ensures.ite (fun _ => Ensures.pure hr)
        fun _ => hp second hS.2
  | unless_ r d =>
      refine (hp r hS.1).bind fun r hr => Ensures.ite (fun hinc => ?_) fun _ => ?_
      · rcases hr with rfl | hr
        · simp at hinc
        · exact absurd hinc hr.2
      · exact Ensures.ite (fun _ => Ensures.pure (Or.inr ⟨by simp, by simp⟩))
          fun _ => hp d hS.2
  | _ => exact hS.elim

include hΓ in
private theorem parse_parser_cons (c : κ) (s s' : List κ) (n : ℕ) :
    (∀ g : Rule ρ φ, g.SingleChar Γ →
        parse Γ V n none g (c :: s) = parse Γ V n none g (c :: s')) ∧
      ∀ g : Rule ρ φ, g.SingleChar Γ →
        parser Γ V n none g (c :: s) = parser Γ V n none g (c :: s') := by
  induction n with
  | zero => exact ⟨fun _ _ => rfl, fun _ _ => rfl⟩
  | succ n ih =>
      obtain ⟨hp, hq⟩ := ih
      exact ⟨fun g hg => hq _ hg.optimized,
        fun g hg => operatorCall_cons hq hp n (special_singleChar hΓ hg)⟩

include hΓ in
/-- **Only the first character matters** to a single-character rule. -/
theorem parser_cons (c : κ) (s s' : List κ) (n : ℕ) {g : Rule ρ φ} (hg : g.SingleChar Γ) :
    parser Γ V n none g (c :: s) = parser Γ V n none g (c :: s') :=
  (parse_parser_cons V hΓ c s s' n).2 g hg

include hΓ in
private theorem parse_parser_one (c : κ) (s : List κ) (n : ℕ) :
    (∀ g : Rule ρ φ, g.SingleChar Γ → Ensures (parse Γ V n none g (c :: s)) OneChar) ∧
      ∀ g : Rule ρ φ, g.SingleChar Γ → Ensures (parser Γ V n none g (c :: s)) OneChar := by
  induction n with
  | zero => exact ⟨fun _ _ => Ensures.fault _, fun _ _ => Ensures.fault _⟩
  | succ n ih =>
      obtain ⟨hp, hq⟩ := ih
      exact ⟨fun g hg => hq _ hg.optimized,
        fun g hg => operatorCall_one hq hp n (special_singleChar hΓ hg)⟩

include hΓ in
/-- **A single-character rule accepts one character or rejects it.** -/
theorem parser_one (c : κ) (s : List κ) (n : ℕ) {g : Rule ρ φ} (hg : g.SingleChar Γ) :
    Ensures (parser Γ V n none g (c :: s)) OneChar := (parse_parser_one V hΓ c s n).2 g hg

end

end Hittop
