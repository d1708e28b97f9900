/-
**One count behind all repetitions.**

The combinators that repeat a rule are recursions of different shapes, over `Concat`, `Opt` and the
loop of `Repeat`.  All of them follow one row of attempts: some successes of the rule in a row, and
then a failure.  What each returns is read off the number of those successes.

The last of the copies that `Exactly` asks for is parsed by `Parser` of the rule where the others
are parsed by `Parse`, which replaces a choice of single characters by a table and splits one of two
alternatives once more.

Main definitions:

* `Hittop.From`, `Hittop.FromParser` — a parse that starts inside of the range;
* `Hittop.Attempts` — successes in a row and the attempt after them;
* `Hittop.repeatResult`, `Hittop.exactlyResult`, … — what the combinators make of it;
* `Hittop.Env.SameParser` — `Parser` and `Parse` of a rule run the same `operator()`.

Main results:

* `Hittop.from_exactly`, `Hittop.from_atMost`, `Hittop.from_repeat` — one lemma for each recursion;
* `Hittop.Env.sameParser_iff`, `Hittop.Env.TablesRegular.meaning_eq` — the rules for which `Parser`
  and `Parse` are the same, and those for which they have the same verdicts;
* `Hittop.repetition_counts` — all of them follow the one count.
-/

import Hittop.Backtracking
import Hittop.Transparency

set_option relaxedAutoImplicit false
set_option autoImplicit false

namespace Hittop

open Exec

variable {ρ φ κ : Type} {Γ : Env ρ φ κ} {g a b : Rule ρ φ} {s : List κ} {i j k m n : ℕ}
  {p : ℕ → ℕ} {e r r' : ParseResult}

/-! ### A parse from a position -/

/-- `Parser<G>{}(s)` returns `r`. -/
def ParserReturns (Γ : Env ρ φ κ) (g : Rule ρ φ) (s : List κ) (r : ParseResult) : Prop :=
  ∃ n, parser Γ (noVisitors ρ φ κ) n none g s () = .ok (r, ())

theorem parserReturns_iff :
    ParserReturns Γ g s r ↔ parserOutcome Γ (noVisitors ρ φ κ) none g s () = .ok (r, ()) :=
  (parser_chain Γ (noVisitors ρ φ κ) none g s).limit_ok_iff.symm

theorem parses_iff_parserReturns : Parses Γ g s r ↔ ParserReturns Γ (Γ.optimized g) s r := by
  rw [parses_iff, parserReturns_iff, outcome_none]

theorem parserReturns_either (hg : Γ.special g = .either a b) (h : Parses Γ a s r) :
    ParserReturns Γ g s r' ↔ if r.HardFailure then Parses Γ b s r' else r' = r := by
  rw [parserReturns_iff, parserOutcome_eq, hg]
  change (outcome Γ _ none a s >>= _) () = _ ↔ _
  rw [bind_of_ok (parses_iff.1 h)]
  by_cases hfail : r.HardFailure
  · have hkeep : ¬ (r.ok || decide (r.error = .incomplete)) = true := by
      simpa [ParseResult.HardFailure] using hfail
    rw [if_neg hkeep, if_pos hfail, parses_iff]
  · have hkeep : (r.ok || decide (r.error = .incomplete)) = true := by
      by_contra hne
      exact hfail (by simpa [ParseResult.HardFailure] using hne)
    rw [if_pos hkeep, if_neg hfail]
    exact ⟨fun hr => ((Prod.mk.inj (Except.ok.inj hr)).1).symm, fun hr => hr ▸ rfl⟩

/-- `Parse<G>` on what is left of `s` after `i` characters; positions count from the beginning. -/
def From (Γ : Env ρ φ κ) (g : Rule ρ φ) (s : List κ) (i : ℕ) (r : ParseResult) : Prop :=
  ∃ r', Parses Γ g (s.drop i) r' ∧ r = r'.advance i

/-- `Parser<G>` on what is left of `s` after `i` characters. -/
def FromParser (Γ : Env ρ φ κ) (g : Rule ρ φ) (s : List κ) (i : ℕ) (r : ParseResult) : Prop :=
  ∃ r', ParserReturns Γ g (s.drop i) r' ∧ r = r'.advance i

theorem ParseResult.exists_of_success_eq (h : success j = r.advance i) :
    ∃ d, r = success d ∧ j = i + d := by
  have hok : r.ok = true := by
    rw [← ParseResult.advance_ok i, ← h]
    rfl
  exact ⟨r.pos, ParseResult.eq_success hok, congrArg ParseResult.pos h⟩

theorem from_zero_iff : From Γ g s 0 r ↔ Parses Γ g s r := by
  simp [From]

theorem From.of_optimized (h : Γ.optimized g = g) : From Γ g s i r ↔ FromParser Γ g s i r := by
  simp only [From, FromParser, parses_iff_parserReturns, h]

/-- A rule whose parser inherits from that of another one. -/
theorem fromParser_inherits (h : Γ.special a = .inherits b) :
    FromParser Γ a s i r ↔ FromParser Γ b s i r := by
  simp only [FromParser, parserReturns_iff, parserOutcome_eq none a, h]
  rfl

theorem fromParser_success : FromParser Γ .success s i (.success i) :=
  ⟨.success 0, parserReturns_iff.2 (by rw [parserOutcome_eq]; rfl), by simp⟩

theorem from_concat (h : From Γ a s i (.success j)) (h' : From Γ b s j r) :
    From Γ (.concat [a, b]) s i r := by
  rw [From.of_optimized rfl]
  obtain ⟨r₁, h₁, hr₁⟩ := h
  obtain ⟨r₂, h₂, rfl⟩ := h'
  obtain ⟨d, rfl, rfl⟩ := ParseResult.exists_of_success_eq hr₁
  rw [← List.drop_drop] at h₂
  refine ⟨r₂.advance d, parserReturns_iff.2 ?_, by simp⟩
  rw [parserOutcome_eq]
  change (outcome Γ _ none a _ >>= _) () = _
  rw [bind_of_ok (parses_iff.1 h₁), if_pos (ParseResult.success_ok d)]
  exact bind_of_ok (parses_iff.1 h₂)

theorem from_concat_of_not_ok (h : From Γ a s i r) (hr : r.ok = false) :
    From Γ (.concat [a, b]) s i r := by
  rw [From.of_optimized rfl]
  obtain ⟨r₁, h₁, rfl⟩ := h
  refine ⟨r₁, parserReturns_iff.2 ?_, rfl⟩
  have hok : ¬ r₁.ok = true := by simpa using hr
  rw [parserOutcome_eq]
  change (outcome Γ _ none a _ >>= _) () = _
  rw [bind_of_ok (parses_iff.1 h₁), if_neg hok]
  rfl

/-- `Opt` turns a failure into a success at the beginning. -/
theorem from_opt (h : From Γ a s i r) :
    From Γ (.opt a) s i (if r.HardFailure then .success i else r) := by
  obtain ⟨r₁, h₁, rfl⟩ := h
  have heither : Γ.special (.either [a, .success]) = .either a .success := rfl
  have hsuccess : Parses Γ .success (s.drop i) (.success 0) := by
    rw [parses_iff, outcome_none, parserOutcome_eq]
    rfl
  rw [From.of_optimized rfl, fromParser_inherits (b := .either [a, .success]) rfl]
  by_cases hr : (r₁.advance i).HardFailure
  · have hr₁ : r₁.HardFailure := by simpa [ParseResult.HardFailure] using hr
    exact ⟨.success 0, (parserReturns_either heither h₁).2 (by rwa [if_pos hr₁]), by simp [hr]⟩
  · have hr₁ : ¬ r₁.HardFailure := by simpa [ParseResult.HardFailure] using hr
    exact ⟨r₁, (parserReturns_either heither h₁).2 (by rw [if_neg hr₁]), by simp [hr]⟩

/-! ### Attempts in a row -/

/-- `p 0, …, p n` are the positions after `0, …, n` successes of `g` in a row, each of which made
progress, and `e` is the result of the attempt after them. -/
structure Attempts (Γ : Env ρ φ κ) (g : Rule ρ φ) (s : List κ) (p : ℕ → ℕ) (n : ℕ)
    (e : ParseResult) : Prop where
  zero : p 0 = 0
  success : ∀ i, i < n → From Γ g s (p i) (.success (p (i + 1))) ∧ p i < p (i + 1)
  last : From Γ g s (p n) e
  failed : e.ok = false

/-- What `Repeat<G>` makes of the attempts. -/
def repeatResult (p : ℕ → ℕ) (n : ℕ) (e : ParseResult) : ParseResult :=
  if e.error = .incomplete then e else .success (p n)

/-- What `Exactly<k, G>` makes of them. -/
def exactlyResult (p : ℕ → ℕ) (n : ℕ) (e : ParseResult) (k : ℕ) : ParseResult :=
  if k ≤ n then .success (p k) else e

/-- What `AtMost<k, G>` makes of them. -/
def atMostResult (p : ℕ → ℕ) (n : ℕ) (e : ParseResult) (k : ℕ) : ParseResult :=
  if n < k ∧ e.error = .incomplete then e else .success (p (min k n))

/-- What `AtLeast<k, G>` makes of them. -/
def atLeastResult (p : ℕ → ℕ) (n : ℕ) (e : ParseResult) (k : ℕ) : ParseResult :=
  if n < k then e else repeatResult p n e

/-- What `Between<j, k, G>` makes of them. -/
def betweenResult (p : ℕ → ℕ) (n : ℕ) (e : ParseResult) (j k : ℕ) : ParseResult :=
  if n < j then e else atMostResult p n e k

section Attempts

variable (h : Attempts Γ g s p n e)
include h

theorem Attempts.hardFailure_iff : e.HardFailure ↔ e.error ≠ .incomplete :=
  ⟨fun he => he.2, fun he => ⟨h.failed, he⟩⟩

/-- The loop of `Repeat` goes on from each success to the last attempt. -/
theorem from_repeat (hi : i ≤ n) : From Γ (.repeat_ g) s (p i) (repeatResult p n e) := by
  rw [From.of_optimized rfl]
  induction hd : n - i generalizing i with
  | zero =>
      obtain rfl : i = n := by omega
      obtain ⟨r₁, h₁, rfl⟩ := h.last
      refine ⟨if r₁.error = .incomplete then r₁ else .success 0, parserReturns_iff.2 ?_, ?_⟩
      · have hok : ¬ r₁.ok = true := by simpa using h.failed
        rw [parserOutcome_repeat rfl, repeats_eq, bind_of_ok (parses_iff.1 h₁), if_neg hok]
        split <;> rfl
      · rw [repeatResult, ParseResult.advance_error]
        split <;> simp
  | succ d ih =>
      obtain ⟨⟨r₁, h₁, hr₁⟩, hlt⟩ := h.success i (by omega)
      obtain ⟨r₂, h₂, hr₂⟩ := ih (i := i + 1) (by omega) (by omega)
      obtain ⟨k, rfl, hpos⟩ := ParseResult.exists_of_success_eq hr₁
      have hk : ¬ (ParseResult.success k).pos = 0 := by
        rw [ParseResult.success_pos]
        omega
      rw [hpos, ← List.drop_drop, parserReturns_iff, parserOutcome_repeat rfl] at h₂
      refine ⟨r₂.advance k, parserReturns_iff.2 ?_, by rw [hr₂, hpos]; simp⟩
      rw [parserOutcome_repeat rfl, repeats_eq, bind_of_ok (parses_iff.1 h₁),
        if_pos (ParseResult.success_ok k), if_neg hk]
      exact bind_of_ok h₂

omit h in
theorem atMostResult_not_hardFailure (k : ℕ) : ¬ (atMostResult p n e k).HardFailure := by
  unfold atMostResult
  split
  · rename_i hinc
    exact fun hfail => hfail.2 hinc.2
  · exact fun hfail => by simpa using hfail.1

omit h in
theorem atMostResult_of_le (hk : k ≤ n) : atMostResult p n e k = .success (p k) := by
  rw [atMostResult, if_neg (by omega), Nat.min_eq_left hk]

/-- An optional rule that does at `p i` what `g` does there, or goes on from the success of `g`. -/
theorem from_opt_attempt (hi : i ≤ n) (hk : i < k)
    (ha : From Γ a s (p i) (if i < n then atMostResult p n e k else e)) :
    From Γ (.opt a) s (p i) (atMostResult p n e k) := by
  have hopt := from_opt ha
  by_cases hlt : i < n
  · rwa [if_pos hlt, if_neg (atMostResult_not_hardFailure k)] at hopt
  · obtain rfl : i = n := by omega
    rw [if_neg hlt] at hopt
    convert hopt using 1
    by_cases hinc : e.error = .incomplete
    · simp [atMostResult, h.hardFailure_iff, hinc, hk]
    · simp [atMostResult, h.hardFailure_iff, hinc, Nat.min_eq_right (Nat.le_of_lt hk)]

/-- `AtMost` from each success on. -/
theorem from_atMost (hi : i ≤ n) (k : ℕ) :
    From Γ (.atMost k g) s (p i) (atMostResult p n e (i + k)) := by
  rw [From.of_optimized rfl]
  induction k generalizing i with
  | zero =>
      rw [fromParser_inherits (b := .success) rfl, Nat.add_zero, atMostResult_of_le hi]
      exact fromParser_success
  | succ k ih =>
      -- `AtMost<1, G>` is `Opt<G>`, the others are an `Opt` of `G` and of one less
      cases k with
      | zero =>
          rw [fromParser_inherits (b := .opt g) rfl, ← From.of_optimized rfl]
          refine from_opt_attempt h hi (by omega) ?_
          by_cases hlt : i < n
          · rw [if_pos hlt, atMostResult_of_le (by omega)]
            exact (h.success i hlt).1
          · obtain rfl : i = n := by omega
            rw [if_neg hlt]
            exact h.last
      | succ k =>
          rw [fromParser_inherits (b := .opt (.concat [g, .opt (.atMost (k + 1) g)])) rfl,
            ← From.of_optimized rfl]
          refine from_opt_attempt h hi (by omega) ?_
          by_cases hlt : i < n
          · have hrest := ih (i := i + 1) (by omega)
            rw [← From.of_optimized rfl] at hrest
            have hopt := from_opt hrest
            rw [if_neg (atMostResult_not_hardFailure _)] at hopt
            have hindex : i + 1 + (k + 1) = i + (k + 1 + 1) := by omega
            rw [if_pos hlt, ← hindex]
            exact from_concat (h.success i hlt).1 hopt
          · obtain rfl : i = n := by omega
            rw [if_neg hlt]
            exact from_concat_of_not_ok h.last h.failed

/-- `Exactly` from each success on, where there are fewer successes than it asks for. -/
theorem from_exactly_of_lt (hi : i ≤ n) (hk : n < i + k) :
    From Γ (.exactly (k + 1) g) s (p i) e := by
  rw [From.of_optimized rfl]
  induction k generalizing i with
  | zero => omega
  | succ k ih =>
      rw [fromParser_inherits (b := .concat [g, .exactly (k + 1) g]) rfl, ← From.of_optimized rfl]
      by_cases hlt : i < n
      · refine from_concat (h.success i hlt).1 ?_
        rw [From.of_optimized rfl]
        exact ih (by omega) (by omega)
      · obtain rfl : i = n := by omega
        exact from_concat_of_not_ok h.last h.failed

/-- `Exactly` from each success on, where its last attempt is reached. -/
theorem from_exactly_last (hk : i + k ≤ n) (hlast : FromParser Γ g s (p (i + k)) r) :
    From Γ (.exactly (k + 1) g) s (p i) r := by
  rw [From.of_optimized rfl]
  induction k generalizing i with
  | zero =>
      rw [fromParser_inherits (b := g) rfl]
      exact hlast
  | succ k ih =>
      have hindex : i + (k + 1) = i + 1 + k := by omega
      rw [hindex] at hlast
      rw [fromParser_inherits (b := .concat [g, .exactly (k + 1) g]) rfl, ← From.of_optimized rfl]
      refine from_concat (h.success i (by omega)).1 ?_
      rw [From.of_optimized rfl]
      exact ih (by omega) hlast

/-! ### The combinators with a minimum -/

/-- Results that are the same but for what a failure tells about itself. -/
structure Similar (R : ParseResult → ParseResult → Prop) : Prop where
  refl : ∀ r, R r r
  success : ∀ {r i}, R r (.success i) → r = .success i
  failed : ∀ {r r'}, R r r' → r'.ok = false → r.ok = false

omit h in
theorem similar_eq : Similar Eq := ⟨fun _ => rfl, fun h => h, fun h h' => h ▸ h'⟩

omit h in
theorem similar_verdict : Similar fun r r' => r.verdict = r'.verdict := by
  refine ⟨fun _ => rfl, fun h => ParseResult.verdict_eq_accept.1 h, fun {r r'} h hok => ?_⟩
  by_contra hne
  have hsuccess := ParseResult.eq_success (by simpa using hne)
  rw [hsuccess, ParseResult.verdict_success] at h
  rw [ParseResult.verdict_eq_accept.1 h.symm] at hok
  cases hok

variable {R : ParseResult → ParseResult → Prop} (hR : Similar R)
  (hsame : ∀ i, i ≤ n → ∀ r, From Γ g s (p i) r → ∃ r', FromParser Γ g s (p i) r' ∧ R r' r)
include hR hsame

/-- **`Exactly`**, where `Parser` of the rule does much the same as `Parse`. -/
theorem from_exactly (k : ℕ) :
    ∃ r, From Γ (.exactly k g) s 0 r ∧ R r (exactlyResult p n e k) := by
  cases k with
  | zero =>
      refine ⟨.success 0, ?_, ?_⟩
      · rw [From.of_optimized rfl, fromParser_inherits (b := .success) rfl]
        exact fromParser_success
      · rw [exactlyResult, if_pos (Nat.zero_le n), h.zero]
        exact hR.refl _
  | succ k =>
      rw [← h.zero]
      by_cases hk : k ≤ n
      · -- the last attempt is the one of `Parser`
        have hlast : From Γ g s (p k) (exactlyResult p n e (k + 1)) := by
          by_cases hlt : k < n
          · rw [exactlyResult, if_pos (Nat.succ_le_of_lt hlt)]
            exact (h.success k hlt).1
          · obtain rfl : k = n := by omega
            rw [exactlyResult, if_neg (by omega)]
            exact h.last
        obtain ⟨r, hr, hRr⟩ := hsame k hk _ hlast
        exact ⟨r, from_exactly_last h (i := 0) (by omega) (by rwa [Nat.zero_add]), hRr⟩
      · refine ⟨e, from_exactly_of_lt h (Nat.zero_le n) (by omega), ?_⟩
        rw [exactlyResult, if_neg (by omega)]
        exact hR.refl e

/-- What follows the copies that are required. -/
theorem from_required {rest : Rule ρ φ} {result : ParseResult} (k : ℕ)
    (hrest : k ≤ n → From Γ rest s (p k) result) :
    ∃ r, From Γ (.concat [.exactly k g, rest]) s 0 r ∧ R r (if n < k then e else result) := by
  obtain ⟨r, hr, hRr⟩ := from_exactly h hR hsame k
  by_cases hk : n < k
  · rw [exactlyResult, if_neg (by omega)] at hRr
    refine ⟨r, from_concat_of_not_ok hr (hR.failed hRr h.failed), ?_⟩
    rwa [if_pos hk]
  · rw [exactlyResult, if_pos (by omega)] at hRr
    rw [hR.success hRr] at hr
    refine ⟨result, from_concat hr (hrest (by omega)), ?_⟩
    rw [if_neg hk]
    exact hR.refl result

/-- **`AtLeast`**. -/
theorem from_atLeast (k : ℕ) :
    ∃ r, From Γ (.atLeast k g) s 0 r ∧ R r (atLeastResult p n e k) := by
  rw [atLeastResult]
  obtain ⟨r, hr, hRr⟩ := from_required h hR hsame k fun hk => from_repeat h hk
  refine ⟨r, ?_, hRr⟩
  rw [From.of_optimized rfl, fromParser_inherits (b := .concat [.exactly k g, .repeat_ g]) rfl,
    ← From.of_optimized rfl]
  exact hr

/-- **`Between`**. -/
theorem from_between {j k : ℕ} (hjk : j ≤ k) :
    ∃ r, From Γ (.between j k g) s 0 r ∧ R r (betweenResult p n e j k) := by
  rw [betweenResult]
  have hrest : ∀ hj : j ≤ n, From Γ (.atMost (k - j) g) s (p j) (atMostResult p n e k) := by
    intro hj
    have hindex : j + (k - j) = k := by omega
    have hmost := from_atMost h hj (k - j)
    rwa [hindex] at hmost
  obtain ⟨r, hr, hRr⟩ := from_required h hR hsame j hrest
  refine ⟨r, ?_, hRr⟩
  have hspecial : Γ.special (.between j k g) =
      .inherits (.concat [.exactly j g, .atMost (k - j) g]) := by
    simp [Env.special, hjk]
  rw [From.of_optimized rfl, fromParser_inherits hspecial, ← From.of_optimized rfl]
  exact hr

end Attempts

/-- **`Between<N, N, G>` is `Exactly<N, G>`**: nothing is left to `AtMost<0, G>`. -/
theorem between_self_iff (N : ℕ) :
    Parses Γ (.between N N g) s r ↔ Parses Γ (.exactly N g) s r := by
  have hspecial : Γ.special (.between N N g) =
      .inherits (.concat [.exactly N g, .atMost 0 g]) := by
    simp [Env.special]
  have hnothing (t : List κ) : outcome Γ (noVisitors ρ φ κ) none (.atMost 0 g) t =
      pure (.success 0) := by
    rw [outcome_none, parserOutcome_eq]
    change parserOutcome Γ (noVisitors ρ φ κ) none .success t = _
    rw [parserOutcome_eq]
    rfl
  have hbetween : outcome Γ (noVisitors ρ φ κ) none (.between N N g) s =
      outcome Γ (noVisitors ρ φ κ) none (.exactly N g) s := by
    rw [outcome_none, Env.optimized_eq_self _ (by simp), parserOutcome_eq, hspecial]
    change parserOutcome Γ (noVisitors ρ φ κ) none _ s = _
    rw [parserOutcome_eq]
    change outcome Γ _ none _ s >>= _ = _
    refine Eq.trans (congrArg (_ >>= ·) (funext fun r => ?_)) (bind_pure _)
    by_cases hok : r.ok = true
    · rw [if_pos hok, hnothing, pure_bind, ParseResult.advance_success, Nat.add_zero,
        ← ParseResult.eq_success hok]
    · rw [if_neg hok]
  rw [parses_iff, parses_iff, hbetween]

/-! ### All of them -/

/-- What the combinators with a minimum return, up to `R`. -/
def CountedBy (Γ : Env ρ φ κ) (g : Rule ρ φ) (s : List κ) (p : ℕ → ℕ) (n : ℕ) (e : ParseResult)
    (R : ParseResult → ParseResult → Prop) : Prop :=
  (∀ k, ∃ r, Parses Γ (.exactly k g) s r ∧ R r (exactlyResult p n e k)) ∧
    (∀ k, ∃ r, Parses Γ (.atLeast k g) s r ∧ R r (atLeastResult p n e k)) ∧
    ∀ j k, j ≤ k → ∃ r, Parses Γ (.between j k g) s r ∧ R r (betweenResult p n e j k)

theorem countedBy (h : Attempts Γ g s p n e) {R : ParseResult → ParseResult → Prop}
    (hR : Similar R) (hsame : ∀ i, i ≤ n → ∀ r, From Γ g s (p i) r →
      ∃ r', FromParser Γ g s (p i) r' ∧ R r' r) : CountedBy Γ g s p n e R := by
  refine ⟨fun k => ?_, fun k => ?_, fun j k hjk => ?_⟩
  · simpa only [from_zero_iff] using from_exactly h hR hsame k
  · simpa only [from_zero_iff] using from_atLeast h hR hsame k
  · simpa only [from_zero_iff] using from_between h hR hsame hjk

/-! ### `Parser` and `Parse` of one rule -/

/-- `Parser<G>` is the `OptimizedParser<G>` that `Parse<G>` runs, be it under another name. -/
def Env.SameParser (Γ : Env ρ φ κ) (g : Rule ρ φ) : Prop := Γ.special (Γ.optimized g) = Γ.special g

/-- The two are the same for every rule but a choice of one or two alternatives and one that is
replaced by a table. -/
theorem Env.sameParser_iff : Γ.SameParser g ↔ (∀ first rest, g ≠ .either (first :: rest)) ∨
    ∃ first second third rest, g = .either (first :: second :: third :: rest) ∧
      ¬ (∀ g' ∈ first :: second :: third :: rest, g'.isSingleCharRule Γ.single = true) := by
  by_cases hg : ∃ first rest, g = .either (first :: rest)
  · obtain ⟨first, rest, rfl⟩ := hg
    rw [SameParser, optimized]
    split_ifs with hsingle
    · -- a table is no choice
      have hall := Rule.isSingleCharRule_trueForAll.1 hsingle
      have htable : Γ.special (.charClass (first :: rest)) = .charClass (first :: rest) := by
        simp only [special, List.all_eq_true.2 hall, if_true]
      refine iff_of_false (fun h => ?_) ?_
      · rw [htable] at h
        rcases rest with _ | ⟨second, _ | ⟨third, rest⟩⟩ <;> cases h
      · rintro (h | ⟨_, _, _, _, heq, hnot⟩)
        · exact h first rest rfl
        · obtain ⟨rfl, rfl⟩ := List.cons.inj (Rule.either.inj heq)
          exact hnot hall
    · have hnot := fun h => hsingle (Rule.isSingleCharRule_trueForAll.2 h)
      rcases rest with _ | ⟨second, _ | ⟨third, rest⟩⟩
      · refine iff_of_false (fun h => by cases h) ?_
        rintro (h | ⟨_, _, _, _, heq, -⟩)
        · exact h first [] rfl
        · cases heq
      · refine iff_of_false (fun h => ?_) ?_
        · have hsecond : Rule.either [second] = second := by
            have hboth : Special.either first (.either [second]) = .either first second := h
            exact (Special.either.inj hboth).2
          have hsize := congrArg sizeOf hsecond
          simp at hsize
          omega
        · rintro (h | ⟨_, _, _, _, heq, -⟩)
          · exact h first [second] rfl
          · cases heq
      · exact iff_of_true rfl (.inr ⟨first, second, third, rest, rfl, hnot⟩)
  · have hne : ∀ first rest, g ≠ .either (first :: rest) := fun first rest h => hg ⟨first, rest, h⟩
    refine iff_of_true ?_ (.inl hne)
    rw [SameParser, optimized_eq_self Γ hne]

theorem Env.SameParser.fromParser (hg : Γ.SameParser g) (h : From Γ g s i r) :
    FromParser Γ g s i r := by
  obtain ⟨r₁, h₁, rfl⟩ := h
  refine ⟨r₁, parserReturns_iff.2 ?_, rfl⟩
  rwa [parses_iff_parserReturns, parserReturns_iff, parserOutcome_eq, hg, ← parserOutcome_eq] at h₁

/-- A table that `Parse<G>` has where `Parser<G>` has a choice is one of regular rules. -/
def Env.TablesRegular (Γ : Env ρ φ κ) : Rule ρ φ → Prop
  | .either [grammar] =>
      (grammar.isSingleCharRule Γ.single = true → Γ.Regular grammar) ∧ Γ.TablesRegular grammar
  | .either [first, second] =>
      -- `Parse<Either<Second>>` has a table where `Parse<Second>` need not have one
      (second.isSingleCharRule Γ.single = true → Γ.Regular second) ∧
        (first.isSingleCharRule Γ.single = true → second.isSingleCharRule Γ.single = true →
          Γ.Regular first)
  | .either gs => (∀ g ∈ gs, g.isSingleCharRule Γ.single = true) → ∀ g ∈ gs, Γ.Regular g
  | _ => True

/-- A rule in which every `Force` is applied to a `Repeat` and no choice is empty has regular
tables. -/
theorem Env.Regular.tablesRegular (hg : Γ.Regular g) : Γ.TablesRegular g := by
  induction hn : sizeOf g using Nat.strongRecOn generalizing g with
  | ind n ih =>
  cases g with
  | either gs =>
      have hgs := Rule.eachOf_iff.1 hg.2
      rcases gs with _ | ⟨first, _ | ⟨second, _ | ⟨third, rest⟩⟩⟩
      · simp [TablesRegular]
      · rw [TablesRegular]
        exact ⟨fun _ => hgs first (by simp), ih _ (by simp [← hn]; omega) (hgs first (by simp)) rfl⟩
      · rw [TablesRegular]
        exact ⟨fun _ => hgs second (by simp), fun _ _ => hgs first (by simp)⟩
      · exact fun _ => hgs
  | _ => simp [TablesRegular]

section Tables

variable {ν σ : Type} {V : Visitors ρ φ κ ν σ} (hΓ : ∀ m, Γ.Regular (Γ.type m))
  (htable : ∀ c, Γ.inTable (Γ.toInt c) = true)
include hΓ htable

/-- A choice of one alternative, which is split into the alternative and an empty choice. -/
theorem meaning_singleton (hg : g.isSingleCharRule Γ.single = true → Γ.Regular g) :
    meaning Γ V none (.either [g]) = meaning Γ V none g := by
  rw [meaning_none, Env.optimized]
  split_ifs with hsingle
  · have hone := Rule.isSingleCharRule_trueForAll.1 hsingle g (by simp)
    rw [parserMeaning_charClass hΓ htable (by simp) (by simpa using ⟨hg hone, hone⟩)
      (by simpa using meaning_none_eq hΓ htable (hg hone))]
    exact Meaning.alt_fail _
  · have hempty : meaning Γ V none (.either []) = .lift .fail :=
      meaning_none.trans ((parserMeaning_inherits rfl).trans (parserMeaning_failure rfl))
    have hsp : Γ.special (.either [g, .either []]) = .either g (.either []) := rfl
    rw [parserMeaning_either hsp, hempty, Meaning.alt_fail]

/-- `Parse` and `Parser` have the same verdicts where the tables are regular. -/
theorem Env.TablesRegular.meaning_eq (hg : Γ.TablesRegular g) :
    meaning Γ V none g = parserMeaning Γ V none g := by
  induction hn : sizeOf g using Nat.strongRecOn generalizing g with
  | ind n ih =>
  cases g with
  | either gs =>
      by_cases hsingle : (Rule.either gs).isSingleCharRule Γ.single = true ∧ gs ≠ []
      · obtain ⟨hsingle, hne⟩ := hsingle
        have hall := Rule.isSingleCharRule_trueForAll.1 hsingle
        have hgs : ∀ g' ∈ gs, Γ.Regular g' := by
          rcases gs with _ | ⟨first, _ | ⟨second, _ | ⟨third, rest⟩⟩⟩
          · exact absurd rfl hne
          · rw [TablesRegular] at hg
            simpa using hg.1 (hall first (by simp))
          · rw [TablesRegular] at hg
            simpa using ⟨hg.2 (hall first (by simp)) (hall second (by simp)),
              hg.1 (hall second (by simp))⟩
          · exact hg hall
        obtain ⟨first, rest, rfl⟩ := List.exists_cons_of_ne_nil hne
        exact meaning_none_eq hΓ htable ⟨trivial, Rule.eachOf_iff.2 hgs⟩
      · rcases gs with _ | ⟨first, _ | ⟨second, _ | ⟨third, rest⟩⟩⟩
        · exact meaning_none
        · rw [TablesRegular] at hg
          rw [meaning_singleton hΓ htable hg.1, parserMeaning_inherits rfl]
          exact ih _ (by simp [← hn]; omega) hg.2 rfl
        · rw [TablesRegular] at hg
          have hsp : Γ.special (.either [first, .either [second]]) =
            .either first (.either [second]) := rfl
          rw [meaning_none, optimized, if_neg fun h => hsingle ⟨h, by simp⟩,
            parserMeaning_either hsp, meaning_singleton hΓ htable hg.1]
          exact (parserMeaning_either rfl).symm
        · rw [meaning_none, optimized, if_neg fun h => hsingle ⟨h, by simp⟩]
          exact (parserMeaning_either rfl).trans (parserMeaning_either rfl).symm
  | _ => exact meaning_none

theorem Env.TablesRegular.fromParser (hg : Γ.TablesRegular g) (h : From Γ g s i r) :
    ∃ r', FromParser Γ g s i r' ∧ r'.verdict = r.verdict := by
  obtain ⟨r₁, h₁, rfl⟩ := h
  have hmeaning : parserMeaning Γ (noVisitors ρ φ κ) none g (s.drop i) () =
      .ok (r₁.verdict, ()) := by
    rw [← hg.meaning_eq hΓ htable, meaning, Exec.verdict_ok_iff]
    exact ⟨r₁, parses_iff.1 h₁, rfl⟩
  obtain ⟨r₂, h₂, hv⟩ := Exec.verdict_ok_iff.1 hmeaning
  exact ⟨r₂.advance i, ⟨r₂, parserReturns_iff.2 h₂, rfl⟩, by simp [hv]⟩

end Tables

/-- A rule that `Parse` replaces by a table accepts one character. -/
theorem productive_of_table {rules : List (Rule ρ φ)} (h : Γ.optimized g = .charClass rules)
    (hs : Parses Γ g s (.success k)) : 0 < k := by
  rw [parses_iff_parserReturns, h, parserReturns_iff, parserOutcome_eq] at hs
  simp only [Env.special] at hs
  split at hs
  · cases s with
    | nil => cases hs
    | cons c s =>
        change (ite _ _ _ : Exec Unit ParseResult) () = _ at hs
        split at hs
        · obtain ⟨entry, ⟨⟩, -, hentry⟩ := bind_ok_iff.1 hs
          cases entry with
          | true => cases hentry; decide
          | false => cases hentry
        · cases hs
  · cases hs

end Hittop
