/-
**Runs that end in the verdict of other runs.**

The parses of one rule with different visitors, or without one, call each other's parsers in the
same order.  This is the simulation between them: if the parsers that `operator()` calls end in the
verdicts of the parsers that another `operator()` calls, it ends in the verdict of the other.  Error
codes and the positions of hard failures may differ.  A visitor may throw: a run ends in the verdict
or in one of a set `E` of faults, and with no faults in `E` it returns.

Main definitions:

* `Hittop.Yields`, `Hittop.Follows` — a run ends in a verdict, faults of `E` apart; whenever another
  run does.

Main results:

* `Hittop.operatorCall_follows` — `operator()` simulates `operator()`.
-/

import Hittop.Meaning
import Hittop.Shape

set_option relaxedAutoImplicit false
set_option autoImplicit false

namespace Hittop

open Exec

variable {ρ φ κ σ τ α : Type} {E : Fault → Prop}

/-! ### Verdicts that follow -/

/-- The outcome is a value with the property, or one of the faults. -/
inductive Exec.Ends (E : Fault → Prop) (P : α → Prop) : Except Fault (α × σ) → Prop
  | value {a : α} {st : σ} : P a → Ends E P (.ok (a, st))
  | fault {e : Fault} : E e → Ends E P (.error e)

/-- What goes on from a run goes on from its values; its faults are faults of the whole. -/
theorem Exec.Ends.bind {β : Type} {P : α → Prop} {Q : β → Prop} {x : Exec σ α} {st : σ}
    {f : α → Exec σ β} (hx : Ends E P (x st)) (hf : ∀ a st₁, P a → Ends E Q (f a st₁)) :
    Ends E Q ((x >>= f) st) := by
  generalize ho : x st = o at hx
  cases hx with
  | value ha =>
      rw [bind_of_ok ho]
      exact hf _ _ ha
  | fault he =>
      rw [bind_of_error ho]
      exact .fault he

/-- Where there are no faults, there is a value. -/
theorem Exec.Ends.exists_ok {P : α → Prop} {o : Except Fault (α × σ)}
    (h : Ends (fun _ => False) P o) : ∃ a st, o = .ok (a, st) ∧ P a := by
  cases h with
  | value ha => exact ⟨_, _, rfl, ha⟩
  | fault he => exact he.elim

/-- Whatever the state, the run ends in the verdict or in one of the faults. -/
def Yields (E : Fault → Prop) (x : Exec σ ParseResult) (w : Verdict) : Prop :=
  ∀ st, Ends E (fun r => r.verdict = w) (x st)

/-- Whenever `x` ends in a result, `y` ends in its verdict or in one of the faults. -/
def Follows (E : Fault → Prop) (x : Exec τ ParseResult) (y : Exec σ ParseResult) : Prop :=
  ∀ t r t', x t = .ok (r, t') → Yields E y r.verdict

theorem Yields.pure {r : ParseResult} {w : Verdict} (h : r.verdict = w) :
    Yields E (Pure.pure r : Exec σ ParseResult) w := fun _ => .value h

theorem Yields.bind {x : Exec σ ParseResult} {f : ParseResult → Exec σ ParseResult} {v w : Verdict}
    (hx : Yields E x v) (hf : ∀ r, r.verdict = v → Yields E (f r) w) : Yields E (x >>= f) w :=
  fun st => (hx st).bind fun r st₁ hr => hf r hr st₁

theorem Yields.verdict_congr {x y : Exec σ ParseResult} {w : Verdict} (h : Yields E x w)
    (heq : x.verdict = y.verdict) : Yields E y w := by
  intro st
  have hx := h st
  generalize ho : x st = o at hx
  cases hx with
  | value hw =>
      obtain ⟨r', hy, hw'⟩ := Exec.verdict_ok_iff.1 (heq ▸ Exec.verdict_ok_iff.2 ⟨_, ho, hw⟩)
      rw [hy]
      exact .value hw'
  | fault he =>
      have hverdict := Exec.verdict_error_iff.2 ho
      rw [heq] at hverdict
      rw [Exec.verdict_error_iff.1 hverdict]
      exact .fault he

theorem Follows.pure {r : ParseResult} {r' : ParseResult} (h : r'.verdict = r.verdict) :
    Follows E (Pure.pure r : Exec τ ParseResult) (Pure.pure r' : Exec σ ParseResult) := by
  intro t r₁ t' h₁
  cases h₁
  exact Yields.pure h

theorem Follows.fault (e : Fault) (y : Exec σ ParseResult) :
    Follows E (Exec.fault e : Exec τ ParseResult) y := by
  intro t r t' h
  cases h

theorem Follows.bind {x : Exec τ ParseResult} {y : Exec σ ParseResult}
    {f : ParseResult → Exec τ ParseResult} {g : ParseResult → Exec σ ParseResult}
    (hx : Follows E x y) (hf : ∀ r r', r'.verdict = r.verdict → Follows E (f r) (g r')) :
    Follows E (x >>= f) (y >>= g) := by
  intro t r t' h
  obtain ⟨r₁, t₁, h₁, h₂⟩ := bind_ok_iff.1 h
  exact (hx t r₁ t₁ h₁).bind fun r₂ hv => hf r₁ r₂ hv t₁ r t' h₂

/-- Results of one verdict are successes at one position, or fail alike. -/
theorem ParseResult.cases_of_verdict_eq {r r' : ParseResult} (h : r'.verdict = r.verdict) :
    (∃ n, r = .success n ∧ r' = .success n) ∨
      (r.ok = false ∧ r'.ok = false ∧ r.error = .incomplete ∧ r'.error = .incomplete) ∨
      (r.ok = false ∧ r'.ok = false ∧ r.error ≠ .incomplete ∧ r'.error ≠ .incomplete) := by
  obtain ⟨pos, error⟩ := r
  obtain ⟨pos', error'⟩ := r'
  cases error <;> cases error' <;> simp_all [verdict, success, ok]

/-- Results of one verdict are treated alike by a test for success and for `INCOMPLETE`. -/
theorem Follows.branch {r r' : ParseResult} {x₁ x₂ x₃ : Exec τ ParseResult}
    {y₁ y₂ y₃ : Exec σ ParseResult} (h : r'.verdict = r.verdict)
    (hok : ∀ n, r = .success n → r' = .success n → Follows E x₁ y₁)
    (hinc : r.error = .incomplete → r'.error = .incomplete → Follows E x₂ y₂)
    (hno : Follows E x₃ y₃) :
    Follows E (if r.ok then x₁ else if r.error = .incomplete then x₂ else x₃)
      (if r'.ok then y₁ else if r'.error = .incomplete then y₂ else y₃) := by
  rcases ParseResult.cases_of_verdict_eq h with ⟨n, rfl, rfl⟩ | ⟨hr, hr', hi, hi'⟩ |
    ⟨hr, hr', hi, hi'⟩
  · simpa using hok n rfl rfl
  · simpa [hr, hr', hi, hi'] using hinc hi hi'
  · simpa [hr, hr', hi, hi'] using hno

/-! ### `operator()` follows `operator()` -/

section Operator

theorem repeatLoop_follows {p : List κ → Exec τ ParseResult} {P : List κ → Exec σ ParseResult}
    (hp : ∀ s, Follows E (p s) (P s)) (k : ℕ) (s : List κ) :
    Follows E (repeatLoop p k s) (repeats P s) := by
  induction k generalizing s with
  | zero => exact Follows.fault _ _
  | succ k ih =>
      rw [repeats_eq, repeatLoop]
      refine (hp s).bind fun r r' h => Follows.branch h (fun n hr hr' => ?_) (fun hi hi' => ?_)
        (Follows.pure rfl)
      · subst hr hr'
        by_cases hn : n = 0
        · simpa [hn] using Follows.pure (τ := τ) (σ := σ) (r := .success 0) rfl
        · simp only [ParseResult.success_pos, hn, if_false]
          exact (ih _).bind fun a a' ha => Follows.pure (by simp [ha])
      · exact Follows.pure (by
          rw [ParseResult.verdict_eq_incomplete.2 hi, ParseResult.verdict_eq_incomplete.2 hi'])

theorem climb_follows {p : List κ → Exec τ ParseResult} {P : List κ → Exec σ ParseResult}
    (hp : ∀ s, Follows E (p s) (P s)) (size : ℕ) (s : List κ)
    {f : ParseResult ⊕ List ℕ → Exec τ ParseResult}
    {g : ParseResult ⊕ List ℕ → Exec σ ParseResult}
    (hstop : ∀ r r', r.error = .incomplete → r'.error = .incomplete →
      Follows E (f (.inl r)) (g (.inl r')))
    (hgo : ∀ prior, Follows E (f (.inr prior)) (g (.inr prior))) (k : ℕ) (prior : List ℕ) :
    Follows E (climb p size s k prior >>= f) (climbs P size s prior >>= g) := by
  induction k generalizing prior with
  | zero =>
      intro t r t' h
      rw [climb, bind_of_error (fault_apply _ t)] at h
      cases h
  | succ k ih =>
      cases prior with
      | nil =>
          intro t r t' h
          rw [climb, bind_of_error (fault_apply _ t)] at h
          cases h
      | cons back older =>
          rw [climbs_cons, climb, bind_assoc, bind_assoc]
          refine (hp _).bind fun r r' h => ?_
          rcases ParseResult.cases_of_verdict_eq h with ⟨n, rfl, rfl⟩ | ⟨hr, hr', hi, hi'⟩ |
            ⟨hr, hr', hi, hi'⟩
          · by_cases hn : n = 0
            · simpa [hn] using hgo _
            · simpa [hn] using ih _
          · simpa [hr, hr', hi, hi'] using hstop _ _ (by simpa using hi) (by simpa using hi')
          · simpa [hr, hr', hi, hi'] using hgo _

theorem fallBack_follows {p : List κ → Exec τ ParseResult} {P : List κ → Exec σ ParseResult}
    (hp : ∀ s, Follows E (p s) (P s)) (s : List κ) : ∀ prior : List ℕ,
      Follows E (fallBack p s prior) (fallBack P s prior)
  | [] => Follows.fault _ _
  | [_] => (hp _).bind fun _ _ h => Follows.pure (by simp [h])
  | _ :: older :: rest => (hp _).bind fun _ _ h =>
      Follows.branch h (fun _ hr hr' => Follows.pure (by simp [hr, hr']))
        (fun _ _ => Follows.pure (by simp [h])) (fallBack_follows hp s (older :: rest))

theorem charClassTester_follows {t : Rule ρ φ → List κ → Exec τ ParseResult}
    {T : Rule ρ φ → List κ → Exec σ ParseResult} {c : κ} {rules : List (Rule ρ φ)}
    (ht : ∀ g ∈ rules, Follows E (t g [c]) (T g [c])) {a b : τ} {entry : Bool}
    (h : charClassTester t c rules a = .ok (entry, b)) (st : σ) :
    Ends E (fun entry' => entry' = entry) (charClassTester T c rules st) := by
  induction rules generalizing a st with
  | nil =>
      cases h
      exact .value rfl
  | cons g rules ih =>
      obtain ⟨r, a₁, hr, hrest⟩ := bind_ok_iff.1 h
      refine (ht g (by simp) a r a₁ hr st).bind fun r' st₁ hv => ?_
      have hok : r'.ok = r.ok := by
        rcases ParseResult.cases_of_verdict_eq hv with ⟨n, rfl, rfl⟩ | ⟨hr, hr', -⟩ | ⟨hr, hr', -⟩
        · rfl
        · rw [hr, hr']
        · rw [hr, hr']
      rw [hok]
      by_cases hr : r.ok = true
      · rw [if_pos hr] at hrest ⊢
        cases hrest
        exact .value rfl
      · rw [if_neg hr] at hrest ⊢
        exact ih (fun g' hg' => ht g' (by simp [hg'])) hrest st₁

/-- **`operator()` follows `operator()`** when the parsers it calls do.  A `Force` has to be applied
to a parser that never rejects. -/
theorem operatorCall_follows (Γ : Env ρ φ κ) {L : Rule ρ φ → Prop}
    {i p t : Rule ρ φ → List κ → Exec τ ParseResult}
    {I P T : Rule ρ φ → List κ → Exec σ ParseResult}
    (hi : ∀ g, L g → ∀ s, Follows E (i g s) (I g s))
    (hp : ∀ g, L g → ∀ s, Follows E (p g s) (P g s))
    (hpl : ∀ g, AllPlaced (p g)) (hPl : ∀ g s, ∀ st r st', P g s st = .ok (r, st') →
      Placed s.length r)
    (k : ℕ) {sp : Special ρ φ} (hL : ∀ g ∈ Γ.calls sp, L g)
    (ht : ∀ rules, sp = .charClass rules → ∀ g ∈ rules, ∀ s, Follows E (t g s) (T g s))
    (hforce : ∀ g, sp = .force g → ∀ s, Ensures (p g s) fun r => r.verdict ≠ .reject)
    (s : List κ) : Follows E (Γ.operatorCall i p t k sp s) (Γ.operatorOutcome I P T sp s) := by
  cases sp with
  | inherits base => exact hi base (hL _ (by simp [Env.calls])) s
  | forwardRef m => exact hi _ (hL _ (by simp [Env.calls])) s
  | success | failure | token _ => exact Follows.pure rfl
  | undefined => exact Follows.fault _ _
  | anyChar => cases s <;> exact Follows.pure rfl
  | literal | charFilter =>
      cases s with
      | nil => exact Follows.pure rfl
      | cons c s =>
          simp only [Env.operatorOutcome, Env.operatorCall]
          split <;> exact Follows.pure rfl
  | charClass rules =>
      cases s with
      | nil => exact Follows.pure rfl
      | cons c s =>
          simp only [Env.operatorOutcome, Env.operatorCall]
          split
          · intro a r b h st
            -- the result depends on the entry of the table alone
            obtain ⟨entry, a₁, htest, hrest⟩ := bind_ok_iff.1 h
            refine (charClassTester_follows (fun g hg => ht rules rfl g hg [c]) htest st).bind
              fun entry' st₁ hentry => ?_
            subst hentry
            cases entry' <;> (cases hrest; exact .value rfl)
          · exact Follows.fault _ _
  | concat first second =>
      refine (hp first (hL _ (by simp [Env.calls])) s).bind fun r r' h => ?_
      rcases ParseResult.cases_of_verdict_eq h with ⟨n, rfl, rfl⟩ | ⟨hr, hr', -⟩ | ⟨hr, hr', -⟩
      · exact (hp second (hL _ (by simp [Env.calls])) _).bind
          fun _ _ h => Follows.pure (by simp [h])
      · simpa [hr, hr'] using Follows.pure h
      · simpa [hr, hr'] using Follows.pure h
  | either first second =>
      refine (hp first (hL _ (by simp [Env.calls])) s).bind fun r r' h => ?_
      have hno := hp second (hL _ (by simp [Env.calls])) s
      rcases ParseResult.cases_of_verdict_eq h with ⟨n, rfl, rfl⟩ | ⟨hr, hr', hi, hi'⟩ |
        ⟨hr, hr', hi, hi'⟩
      · exact Follows.pure rfl
      · simpa [hi, hi'] using Follows.pure h
      · simpa [hr, hr', hi, hi'] using hno
  | unless_ r d =>
      refine (hp r (hL _ (by simp [Env.calls])) s).bind fun r r' h => ?_
      have hno := hp d (hL _ (by simp [Env.calls])) s
      rcases ParseResult.cases_of_verdict_eq h with ⟨n, rfl, rfl⟩ | ⟨hr, hr', hi, hi'⟩ |
        ⟨hr, hr', hi, hi'⟩
      · exact Follows.pure rfl
      · simpa [hi, hi'] using Follows.pure h
      · simpa [hr, hr', hi, hi'] using hno
  | repeat_ g => exact repeatLoop_follows (hp g (hL _ (by simp [Env.calls]))) k s
  | repeatAndThen repeated rest size =>
      refine climb_follows (hp repeated (hL _ (by simp [Env.calls]))) size s
        (fun r r' hi hi' => Follows.pure ?_)
        (fun prior => fallBack_follows (hp rest (hL _ (by simp [Env.calls]))) s prior) k _
      rw [ParseResult.verdict_eq_incomplete.2 hi, ParseResult.verdict_eq_incomplete.2 hi']
  | force g =>
      intro a r b h st
      -- `Force` keeps the position of a result; of results that are no rejections it is the same
      obtain ⟨r₁, a₁, h₁, hrest⟩ := bind_ok_iff.1 h
      have hP := hp g (hL _ (by simp [Env.calls])) s a r₁ a₁ h₁ st
      cases hrest
      -- the position of what `P` returns says that `INCOMPLETE` is at the end
      have hboth : Ends E (fun r => r.verdict = r₁.verdict ∧ Placed s.length r) (P g s st) := by
        generalize ho : P g s st = o at hP
        cases hP with
        | value hv => exact .value ⟨hv, hPl g s st _ _ ho⟩
        | fault he => exact .fault he
      refine hboth.bind fun r₂ st₂ hr₂ => ?_
      obtain ⟨hv, hplaced⟩ := hr₂
      have hpos : r₂.pos = r₁.pos := by
        rcases ParseResult.cases_of_verdict_eq hv with ⟨n, h, h'⟩ | ⟨-, -, hi, hi'⟩ |
          ⟨hr, -, hi, -⟩
        · rw [h, h']
        · rw [(hpl g s a r₁ _ h₁).incomplete hi, hplaced.incomplete hi']
        · refine absurd ?_ (hforce g rfl s a r₁ _ h₁)
          rcases r₁.verdict_cases with ⟨n, rfl⟩ | ⟨-, hi', -⟩ | ⟨-, -, hw⟩
          · simp at hr
          · exact absurd hi' hi
          · exact hw
      exact .value (by simp [hpos])

end Operator

end Hittop
