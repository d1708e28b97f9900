/-
**The trait of single-character rules, and `Force`.**

`IsSingleCharRule` tags the rules that accept a single character on success.  `Force` has the trait
if its rule has it, but succeeds where its rule fails, and then without a character; so its parser
does not do what a table for it would do.  Whether that shows depends on the branch that the parser
of a nest of rules takes: it does unless the branch ends in another rule than such a `Force`.

Main definitions:

* `Hittop.Env.Nest` — the rules the trait is declared for;
* `Hittop.Env.ComesTo`, `Hittop.Env.Swallows` — the branch a parser takes, and a `Force` that
  swallows a failure at its end;
* `Hittop.Env.OneCharOn` — what the trait promises.

Main results:

* `Hittop.Env.Nest.isSingleCharRule` — the rules of a nest have the trait;
* `Hittop.single_char_iff` — the promise is kept just where no failure is swallowed.
-/

import Hittop.Repetition

set_option relaxedAutoImplicit false
set_option autoImplicit false

namespace Hittop

open Exec

variable {ρ φ κ : Type} {Γ : Env ρ φ κ} {g a b : Rule ρ φ} {s : List κ} {r : ParseResult}

/-! ### Nests of single-character rules -/

/-- Any nesting of one-character literals, character filters, `AnyChar`, `CharClass`, `Unless`,
`Force`, `ForwardRef` and nonempty `Either`. -/
inductive Env.Nest (Γ : Env ρ φ κ) : Rule ρ φ → Prop
  | literal (ch : ℤ) : Nest Γ (.literal [ch])
  | charFilter (f : φ) : Nest Γ (.charFilter f)
  | anyChar : Nest Γ .anyChar
  | charClass {rules : List (Rule ρ φ)} (h : ∀ g ∈ rules, Nest Γ g) : Nest Γ (.charClass rules)
  | unless_ {reject default : Rule ρ φ} (hr : Nest Γ reject) (hd : Nest Γ default) :
      Nest Γ (.unless_ reject default)
  | force {g : Rule ρ φ} (h : Nest Γ g) : Nest Γ (.force g)
  | forwardRef {m : ρ} (h : Nest Γ (Γ.type m)) : Nest Γ (.forwardRef m)
  | either {gs : List (Rule ρ φ)} (hne : gs ≠ []) (h : ∀ g ∈ gs, Nest Γ g) : Nest Γ (.either gs)

/-- The rules of a nest have the trait. -/
theorem Env.Nest.isSingleCharRule (h : Γ.Nest g) : g.isSingleCharRule Γ.single = true := by
  induction h with
  | literal | charFilter | anyChar | charClass => simp [Rule.isSingleCharRule]
  | unless_ _ _ ihr ihd => simp [Rule.isSingleCharRule, ihr, ihd]
  | force _ ih => simpa [Rule.isSingleCharRule] using ih
  | @forwardRef m _ ih => exact (Γ.single_type m).symm.trans ih
  | either _ _ ih => exact Rule.isSingleCharRule_trueForAll.2 ih

/-! ### The branch a parser takes -/

/-- The result of the parser of a rule on `s` is the result of the parser of `f`, which stands at
the end of the branch that it takes, or in the middle of it. -/
inductive Env.ComesTo (Γ : Env ρ φ κ) (s : List κ) (f : Rule ρ φ) : Rule ρ φ → Prop
  | here : ComesTo Γ s f f
  | inherits {g base : Rule ρ φ} (hg : Γ.special g = .inherits base) (h : ComesTo Γ s f base) :
      ComesTo Γ s f g
  | forwardRef {g : Rule ρ φ} {m : ρ} (hg : Γ.special g = .forwardRef m)
      (h : ComesTo Γ s f (Γ.type m)) : ComesTo Γ s f g
  /-- The first alternative does not fail. -/
  | first {g first second : Rule ρ φ} {r : ParseResult} (hg : Γ.special g = .either first second)
      (hr : Parses Γ first s r) (hok : ¬ r.HardFailure) (h : ComesTo Γ s f (Γ.optimized first)) :
      ComesTo Γ s f g
  /-- The first alternative fails. -/
  | second {g first second : Rule ρ φ} {r : ParseResult} (hg : Γ.special g = .either first second)
      (hr : Parses Γ first s r) (hfail : r.HardFailure)
      (h : ComesTo Γ s f (Γ.optimized second)) : ComesTo Γ s f g
  /-- The rejected rule fails. -/
  | default {g reject default : Rule ρ φ} {r : ParseResult}
      (hg : Γ.special g = .unless_ reject default) (hr : Parses Γ reject s r)
      (hfail : r.HardFailure) (h : ComesTo Γ s f (Γ.optimized default)) : ComesTo Γ s f g

/-- A `Force` whose rule gets nowhere; at the end of the input also an `Unless` that rejects,
because there only a `Force` can have made its first rule succeed. -/
def Env.Swallows (Γ : Env ρ φ κ) (s : List κ) : Rule ρ φ → Prop
  | .force g => ∃ r, Parses Γ g s r ∧ r.pos = 0
  | .unless_ reject _ => s = [] ∧ ∃ r, Parses Γ reject s r ∧ r.ok = true
  | _ => False

/-- Some failure is swallowed on the branch the parser of `g` takes. -/
def Env.Swallowed (Γ : Env ρ φ κ) (g : Rule ρ φ) (s : List κ) : Prop :=
  ∃ f, Γ.ComesTo s f g ∧ Γ.Swallows s f

/-- **What the trait promises** about an input: more is asked for at its end, and before, one
character is accepted or the input rejected, whatever follows the first character. -/
def Env.OneCharOn (Γ : Env ρ φ κ) (g : Rule ρ φ) (s : List κ) : Prop :=
  (s = [] → ∃ r, ParserReturns Γ g s r ∧ r.error = .incomplete) ∧
    ∀ c t, s = c :: t → ∃ r, (∀ t', ParserReturns Γ g (c :: t') r) ∧ OneChar r

/-! ### Results of the parsers of a nest -/

theorem ParserReturns.unique {r' : ParseResult} (h : ParserReturns Γ g s r)
    (h' : ParserReturns Γ g s r') : r = r' := by
  rw [parserReturns_iff] at h h'
  rw [h] at h'
  exact (Prod.mk.inj (Except.ok.inj h')).1

theorem parserReturns_unless (h : Parses Γ a s r) {r' : ParseResult} :
    ParserReturns Γ (.unless_ a b) s r' ↔
      if r.HardFailure then Parses Γ b s r'
      else r' = if r.ok then ⟨r.pos, .failedCondition⟩ else r := by
  rw [parserReturns_iff, parserOutcome_eq]
  change (outcome Γ _ none a s >>= _) () = _ ↔ _
  rw [bind_of_ok (parses_iff.1 h)]
  rcases r.verdict_cases with ⟨n, rfl⟩ | ⟨hok, hinc, -⟩ | ⟨hok, hinc, -⟩
  · simp [ParseResult.HardFailure, eq_comm]
  · simp [ParseResult.HardFailure, hok, hinc, eq_comm]
  · simp [ParseResult.HardFailure, hok, hinc, parses_iff]

theorem parserReturns_force (h : Parses Γ a s r) {r' : ParseResult} :
    ParserReturns Γ (.force a) s r' ↔ r' = .success r.pos := by
  rw [parserReturns_iff, parserOutcome_eq]
  change (outcome Γ _ none a s >>= _) () = _ ↔ _
  rw [bind_of_ok (parses_iff.1 h)]
  exact ⟨fun hr => ((Prod.mk.inj (Except.ok.inj hr)).1).symm, fun hr => hr ▸ rfl⟩

/-- The parser of a rule returns, and reads one character at most. -/
structure Env.Fine (Γ : Env ρ φ κ) (g : Rule ρ φ) : Prop where
  nil : ∃ r, ParserReturns Γ g [] r
  cons : ∀ c, ∃ r, (∀ t, ParserReturns Γ g (c :: t) r) ∧ r.pos ≤ 1 ∧ r.error ≠ .incomplete

/-- The parser of a rule is fine, and does what the trait promises where no failure is swallowed. -/
structure Env.Judged (Γ : Env ρ φ κ) (g : Rule ρ φ) : Prop where
  fine : Γ.Fine g
  iff : ∀ s, Γ.OneCharOn g s ↔ ¬ Γ.Swallowed g s

theorem Env.Fine.pos_nil (h : ParserReturns Γ g [] r) : r.pos = 0 := by
  obtain ⟨n, hn⟩ := h
  have hle := (parser_placed Γ _ n none g [] () r () hn).le
  simpa using hle

theorem Env.Fine.parses (h : Γ.Fine (Γ.optimized g)) : (∃ r, Parses Γ g [] r) ∧
    ∀ c, ∃ r, (∀ t, Parses Γ g (c :: t) r) ∧ r.pos ≤ 1 ∧ r.error ≠ .incomplete := by
  simp only [parses_iff_parserReturns]
  exact ⟨h.nil, h.cons⟩

/-- A parse of a rule that is fine. -/
theorem Env.Fine.exists_parses (h : Γ.Fine (Γ.optimized g)) (s : List κ) :
    ∃ r, Parses Γ g s r := by
  cases s with
  | nil => exact h.parses.1
  | cons c t =>
      obtain ⟨r, hr, -⟩ := h.parses.2 c
      exact ⟨r, hr t⟩

/-- Two rules whose parsers return the same. -/
theorem Env.Judged.congr (hb : Γ.Judged b)
    (h : ∀ s r, ParserReturns Γ g s r ↔ ParserReturns Γ b s r)
    (hs : ∀ s, Γ.Swallowed g s ↔ Γ.Swallowed b s) : Γ.Judged g := by
  refine ⟨⟨?_, fun c => ?_⟩, fun s => ?_⟩
  · simpa only [h] using hb.fine.nil
  · simpa only [h] using hb.fine.cons c
  · have hiff := hb.iff s
    rw [hs s, ← hiff]
    simp only [Env.OneCharOn, h]

/-- A rule that does what the trait promises, and takes no branch. -/
theorem Env.Judged.leaf (hnil : ∃ r, ParserReturns Γ g [] r ∧ r.error = .incomplete)
    (hcons : ∀ c, ∃ r, (∀ t, ParserReturns Γ g (c :: t) r) ∧ OneChar r)
    (hs : ∀ s, ¬ Γ.Swallowed g s) : Γ.Judged g := by
  refine ⟨⟨?_, fun c => ?_⟩, fun s => iff_of_true ⟨fun hs => ?_, fun c t _ => hcons c⟩ (hs s)⟩
  · obtain ⟨r, hr, -⟩ := hnil
    exact ⟨r, hr⟩
  · obtain ⟨r, hr, hone⟩ := hcons c
    refine ⟨r, hr, ?_, ?_⟩
    · obtain ⟨n, hn⟩ := hr []
      exact (parser_placed Γ _ n none g [c] () r () hn).le
    · rcases hone with rfl | hone
      · simp
      · exact hone.2
  · exact hs ▸ hnil

theorem not_swallowed_of_leaf (hg : Γ.calls (Γ.special g) = []) (h : ¬ Γ.Swallows s g) :
    ¬ Γ.Swallowed g s := by
  rintro ⟨f, hf, hs⟩
  cases hf with
  | here => exact h hs
  | inherits hsp | forwardRef hsp | first hsp | second hsp | default hsp =>
      rw [hsp] at hg
      cases hg

/-- A branch that goes on to one other rule. -/
theorem swallowed_inherits (hg : Γ.special g = .inherits b) (h : ¬ Γ.Swallows s g) :
    Γ.Swallowed g s ↔ Γ.Swallowed b s := by
  constructor
  · rintro ⟨f, hf, hs⟩
    cases hf with
    | here => exact absurd hs h
    | inherits hsp hf =>
        cases hsp.symm.trans hg
        exact ⟨f, hf, hs⟩
    | forwardRef hsp | first hsp | second hsp | default hsp => cases hsp.symm.trans hg
  · rintro ⟨f, hf, hs⟩
    exact ⟨f, .inherits hg hf, hs⟩

theorem swallowed_forwardRef {m : ρ} :
    Γ.Swallowed (.forwardRef m) s ↔ Γ.Swallowed (Γ.type m) s := by
  constructor
  · rintro ⟨f, hf, hs⟩
    cases hf with
    | here => exact hs.elim
    | forwardRef hsp hf =>
        cases hsp
        exact ⟨f, hf, hs⟩
    | inherits hsp | first hsp | second hsp | default hsp => cases hsp
  · rintro ⟨f, hf, hs⟩
    exact ⟨f, .forwardRef rfl hf, hs⟩

/-- The branch of a choice, once the first alternative is known. -/
theorem swallowed_either (hg : Γ.special g = .either a b) (h : ¬ Γ.Swallows s g)
    (hr : Parses Γ a s r) :
    Γ.Swallowed g s ↔ Γ.Swallowed (Γ.optimized (if r.HardFailure then b else a)) s := by
  constructor
  · rintro ⟨f, hf, hs⟩
    cases hf with
    | here => exact absurd hs h
    | first hsp hr' hok hf =>
        cases hsp.symm.trans hg
        rw [if_neg (hr.unique hr' ▸ hok)]
        exact ⟨f, hf, hs⟩
    | second hsp hr' hfail hf =>
        cases hsp.symm.trans hg
        rw [if_pos (hr.unique hr' ▸ hfail)]
        exact ⟨f, hf, hs⟩
    | inherits hsp | forwardRef hsp | default hsp => cases hsp.symm.trans hg
  · rintro ⟨f, hf, hs⟩
    by_cases hfail : r.HardFailure
    · rw [if_pos hfail] at hf
      exact ⟨f, .second hg hr hfail hf, hs⟩
    · rw [if_neg hfail] at hf
      exact ⟨f, .first hg hr hfail hf, hs⟩

/-- The branch of an exclusion, once the rejected rule is known. -/
theorem swallowed_unless (hr : Parses Γ a s r) :
    Γ.Swallowed (.unless_ a b) s ↔
      (s = [] ∧ r.ok = true) ∨ (r.HardFailure ∧ Γ.Swallowed (Γ.optimized b) s) := by
  constructor
  · rintro ⟨f, hf, hs⟩
    cases hf with
    | here =>
        obtain ⟨hnil, r', hr', hok⟩ := hs
        exact .inl ⟨hnil, hr.unique hr' ▸ hok⟩
    | default hsp hr' hfail hf =>
        cases hsp
        exact .inr ⟨hr.unique hr' ▸ hfail, f, hf, hs⟩
    | inherits hsp | forwardRef hsp | first hsp | second hsp => cases hsp
  · rintro (⟨hnil, hok⟩ | ⟨hfail, f, hf, hs⟩)
    · exact ⟨_, .here, hnil, r, hr, hok⟩
    · exact ⟨f, .default rfl hr hfail hf, hs⟩

theorem swallowed_force (hr : Parses Γ a s r) : Γ.Swallowed (.force a) s ↔ r.pos = 0 := by
  constructor
  · rintro ⟨f, hf, hs⟩
    cases hf with
    | here =>
        obtain ⟨r', hr', hpos⟩ := hs
        exact hr.unique hr' ▸ hpos
    | inherits hsp | forwardRef hsp | first hsp | second hsp | default hsp => cases hsp
  · intro hpos
    exact ⟨_, .here, r, hr, hpos⟩

/-! ### One judgement for each rule -/

theorem oneCharOn_nil :
    Γ.OneCharOn g [] ↔ ∃ r, ParserReturns Γ g [] r ∧ r.error = .incomplete :=
  ⟨fun h => h.1 rfl, fun h => ⟨fun _ => h, fun c t hs => by cases hs⟩⟩

theorem oneCharOn_cons {c : κ} {t : List κ} :
    Γ.OneCharOn g (c :: t) ↔ ∃ r, (∀ t', ParserReturns Γ g (c :: t') r) ∧ OneChar r := by
  refine ⟨fun h => h.2 c t rfl, fun h => ⟨(by cases ·), fun c' t' hs => ?_⟩⟩
  cases hs
  exact h

/-- Two rules whose parsers return the same on the inputs that begin like `s`. -/
theorem oneCharOn_congr (h : ∀ s', s'.head? = s.head? → ∀ r,
    ParserReturns Γ g s' r ↔ ParserReturns Γ b s' r) : Γ.OneCharOn g s ↔ Γ.OneCharOn b s := by
  cases s with
  | nil => simp only [oneCharOn_nil, h [] rfl]
  | cons c t => simp only [oneCharOn_cons, fun t' r => h (c :: t') rfl r]

/-- A parse of a rule that is fine depends on the first character only. -/
theorem Env.Fine.exists_alike (h : Γ.Fine (Γ.optimized g)) (s : List κ) :
    ∃ r, (∀ s', s'.head? = s.head? → Parses Γ g s' r) ∧ r.pos ≤ 1 ∧
      (s ≠ [] → r.error ≠ .incomplete) ∧ (s = [] → r.pos = 0) := by
  cases s with
  | nil =>
      obtain ⟨r, hr⟩ := h.nil
      have hpos := Env.Fine.pos_nil hr
      refine ⟨r, fun s' hs' => ?_, by omega, fun hne => absurd rfl hne, fun _ => hpos⟩
      rw [List.head?_eq_none_iff.1 hs', parses_iff_parserReturns]
      exact hr
  | cons c t =>
      obtain ⟨r, hr, hpos, hinc⟩ := h.cons c
      refine ⟨r, fun s' hs' => ?_, hpos, fun _ => hinc, fun hs => by cases hs⟩
      obtain ⟨t', rfl⟩ := List.head?_eq_some_iff.1 hs'
      rw [parses_iff_parserReturns]
      exact hr t'

/-- A rule that is fine where it begins like `s`, from a result that is. -/
theorem Env.Fine.of_alike (h : ∀ s, ∃ r, (∀ s', s'.head? = s.head? → ParserReturns Γ g s' r) ∧
    r.pos ≤ 1 ∧ (s ≠ [] → r.error ≠ .incomplete)) : Γ.Fine g := by
  refine ⟨?_, fun c => ?_⟩
  · obtain ⟨r, hr, -⟩ := h []
    exact ⟨r, hr [] rfl⟩
  · obtain ⟨r, hr, hpos, hinc⟩ := h [c]
    exact ⟨r, fun t => hr (c :: t) rfl, hpos, hinc (by simp)⟩

theorem judged_force (ha : Γ.Judged (Γ.optimized a)) : Γ.Judged (.force a) := by
  have hreturns (s : List κ) : ∃ r, (∀ s', s'.head? = s.head? → Parses Γ a s' r) ∧ r.pos ≤ 1 ∧
      (s = [] → r.pos = 0) ∧ ∀ s', s'.head? = s.head? → ∀ r',
        ParserReturns Γ (.force a) s' r' ↔ r' = .success r.pos := by
    obtain ⟨r, hr, hpos, -, hnil⟩ := ha.fine.exists_alike s
    exact ⟨r, hr, hpos, hnil, fun s' hs' r' => parserReturns_force (hr s' hs')⟩
  refine ⟨.of_alike fun s => ?_, fun s => ?_⟩
  · obtain ⟨r, -, hpos, -, hforce⟩ := hreturns s
    exact ⟨.success r.pos, fun s' hs' => (hforce s' hs' _).2 rfl, hpos, by simp⟩
  · obtain ⟨r, hr, hpos, hnil, hforce⟩ := hreturns s
    rw [swallowed_force (hr s rfl)]
    cases s with
    | nil =>
        refine iff_of_false (fun hone => ?_) fun hne => hne (hnil rfl)
        obtain ⟨r', hr', hinc⟩ := oneCharOn_nil.1 hone
        rw [(hforce [] rfl r').1 hr'] at hinc
        cases hinc
    | cons c t =>
        rw [oneCharOn_cons]
        constructor
        · rintro ⟨r', hr', hone⟩ hzero
          rw [(hforce _ rfl r').1 (hr' t), hzero] at hone
          rcases hone with hone | hone
          · cases hone
          · cases hone.1
        · intro hne
          have hone : r.pos = 1 := by omega
          exact ⟨.success 1, fun t' => (hforce (c :: t') rfl _).2 (by rw [hone]), .inl rfl⟩

theorem judged_either (hg : Γ.special g = .either a b) (hs : ∀ s, ¬ Γ.Swallows s g)
    (ha : Γ.Judged (Γ.optimized a)) (hb : Γ.Judged (Γ.optimized b)) : Γ.Judged g := by
  -- on the inputs that begin like `s` the choice is one of its alternatives
  have hreturns (s : List κ) : ∃ r, Parses Γ a s r ∧ ∀ s', s'.head? = s.head? → ∀ r',
      ParserReturns Γ g s' r' ↔ Parses Γ (if r.HardFailure then b else a) s' r' := by
    obtain ⟨r, hr, -⟩ := ha.fine.exists_alike s
    refine ⟨r, hr s rfl, fun s' hs' r' => ?_⟩
    rw [parserReturns_either hg (hr s' hs')]
    by_cases hfail : r.HardFailure
    · rw [if_pos hfail, if_pos hfail]
    · rw [if_neg hfail, if_neg hfail]
      exact ⟨fun h => h ▸ hr s' hs', fun h => h.unique (hr s' hs')⟩
  have hjudged (p : Prop) [Decidable p] : Γ.Judged (Γ.optimized (if p then b else a)) := by
    by_cases hp : p
    · rwa [if_pos hp]
    · rwa [if_neg hp]
  refine ⟨.of_alike fun s => ?_, fun s => ?_⟩
  · obtain ⟨r, -, hr⟩ := hreturns s
    obtain ⟨r', hr', hpos, hinc, -⟩ := (hjudged r.HardFailure).fine.exists_alike s
    exact ⟨r', fun s' hs' => (hr s' hs' r').2 (hr' s' hs'), hpos, hinc⟩
  · obtain ⟨r, hr, hiff⟩ := hreturns s
    rw [swallowed_either hg (hs s) hr, ← (hjudged r.HardFailure).iff s]
    refine oneCharOn_congr fun s' hs' r' => ?_
    rw [hiff s' hs' r', parses_iff_parserReturns]

theorem judged_unless (ha : Γ.Judged (Γ.optimized a)) (hb : Γ.Judged (Γ.optimized b)) :
    Γ.Judged (.unless_ a b) := by
  refine ⟨.of_alike fun s => ?_, fun s => ?_⟩
  · obtain ⟨r, hr, hpos, hinc, -⟩ := ha.fine.exists_alike s
    by_cases hfail : r.HardFailure
    · obtain ⟨r', hr', hpos', hinc', -⟩ := hb.fine.exists_alike s
      refine ⟨r', fun s' hs' => ?_, hpos', hinc'⟩
      rw [parserReturns_unless (hr s' hs'), if_pos hfail]
      exact hr' s' hs'
    · refine ⟨if r.ok then ⟨r.pos, .failedCondition⟩ else r, fun s' hs' => ?_, ?_, fun hne => ?_⟩
      · rw [parserReturns_unless (hr s' hs'), if_neg hfail]
      · split <;> exact hpos
      · split
        · simp
        · exact hinc hne
  · obtain ⟨r, hr, hpos, hinc, -⟩ := ha.fine.exists_alike s
    rw [swallowed_unless (hr s rfl)]
    by_cases hfail : r.HardFailure
    · -- the rule goes on as its second one
      have hbranch : (s = [] ∧ r.ok = true ∨ r.HardFailure ∧ Γ.Swallowed (Γ.optimized b) s) ↔
          Γ.Swallowed (Γ.optimized b) s := by
        simp [hfail, hfail.1]
      rw [hbranch, ← hb.iff s]
      refine oneCharOn_congr fun s' hs' r' => ?_
      rw [parserReturns_unless (hr s' hs'), if_pos hfail, parses_iff_parserReturns]
    · have hreturns : ∀ s', s'.head? = s.head? →
          ParserReturns Γ (.unless_ a b) s' (if r.ok then ⟨r.pos, .failedCondition⟩ else r) := by
        intro s' hs'
        rw [parserReturns_unless (hr s' hs'), if_neg hfail]
      simp only [hfail, false_and, or_false]
      cases s with
      | nil =>
          rw [oneCharOn_nil]
          by_cases hok : r.ok = true
          · refine iff_of_false ?_ (by simp [hok])
            rintro ⟨r', hr', hinc'⟩
            rw [← (hreturns [] rfl).unique hr', if_pos hok] at hinc'
            cases hinc'
          · refine iff_of_true ⟨_, hreturns [] rfl, ?_⟩ (by simp [hok])
            rw [if_neg hok]
            by_contra hne
            exact hfail ⟨by simpa using hok, hne⟩
      | cons c t =>
          refine iff_of_true (oneCharOn_cons.2 ⟨_, fun t' => hreturns (c :: t') rfl, ?_⟩) (by simp)
          by_cases hok : r.ok = true
          · rw [if_pos hok]
            exact .inr ⟨rfl, by simp⟩
          · exact absurd ⟨by simpa using hok, hinc (by simp)⟩ hfail

/-- The entry of a table, for rules whose parsers return. -/
theorem charClassTester_returns {rules : List (Rule ρ φ)} (h : ∀ g ∈ rules, Γ.Fine g) (c : κ) :
    ∃ entry, charClassTester (parserOutcome Γ (noVisitors ρ φ κ) none) c rules () =
      .ok (entry, ()) := by
  induction rules with
  | nil => exact ⟨false, rfl⟩
  | cons g rules ih =>
      obtain ⟨r, hr, -⟩ := (h g (by simp)).cons c
      obtain ⟨entry, hentry⟩ := ih fun g' hg' => h g' (by simp [hg'])
      rw [charClassTester, bind_of_ok (parserReturns_iff.1 (hr []))]
      by_cases hok : r.ok = true
      · exact ⟨true, by rw [if_pos hok]; rfl⟩
      · exact ⟨entry, by rw [if_neg hok]; exact hentry⟩

theorem judged_charClass {rules : List (Rule ρ φ)}
    (htable : ∀ c, Γ.inTable (Γ.toInt c) = true)
    (hsingle : ∀ g ∈ rules, g.isSingleCharRule Γ.single = true) (h : ∀ g ∈ rules, Γ.Fine g) :
    Γ.Judged (.charClass rules) := by
  have hsp : Γ.special (.charClass rules) = .charClass rules := by
    simp only [Env.special, List.all_eq_true.2 hsingle, if_true]
  refine .leaf ⟨⟨0, .incomplete⟩, ?_, rfl⟩ (fun c => ?_) fun s => not_swallowed_of_leaf ?_ id
  · rw [parserReturns_iff, parserOutcome_eq, hsp]
    rfl
  · obtain ⟨entry, hentry⟩ := charClassTester_returns h c
    refine ⟨if entry then .success 1 else ⟨0, .badChar⟩, fun t => ?_, ?_⟩
    · rw [parserReturns_iff, parserOutcome_eq, hsp]
      change (ite _ _ _ : Exec Unit ParseResult) () = _
      rw [if_pos (htable c), bind_of_ok hentry]
      cases entry <;> rfl
    · cases entry
      · exact .inr ⟨rfl, by simp⟩
      · exact .inl rfl
  · rw [hsp]
    rfl

/-- A rule that calls no other and tests one character. -/
theorem judged_test {g : Rule ρ φ} (test : κ → Bool) (hself : Γ.optimized g = g)
    (hcalls : Γ.calls (Γ.special g) = []) (hs : ∀ s, ¬ Γ.Swallows s g)
    (hnil : ParserReturns Γ g [] ⟨0, .incomplete⟩)
    (hcons : ∀ c t, ParserReturns Γ g (c :: t) (if test c then .success 1 else ⟨0, .badChar⟩)) :
    Γ.Judged g ∧ Γ.Judged (Γ.optimized g) := by
  have hg : Γ.Judged g := by
    refine .leaf ⟨_, hnil, rfl⟩ (fun c => ⟨_, hcons c, ?_⟩) fun s =>
      not_swallowed_of_leaf hcalls (hs s)
    cases test c with
    | true => exact .inl rfl
    | false => exact .inr ⟨rfl, by simp⟩
  exact ⟨hg, hself.symm ▸ hg⟩

/-- Every rule of a nest, and the one `Parse` replaces it by. -/
theorem Env.Nest.judged (htable : ∀ c, Γ.inTable (Γ.toInt c) = true) (h : Γ.Nest g) :
    Γ.Judged g ∧ Γ.Judged (Γ.optimized g) := by
  induction h with
  | literal ch =>
      refine judged_test (fun c => decide (Γ.toInt c = ch)) rfl rfl (fun _ => id) ⟨1, rfl⟩
        fun c t => ⟨1, ?_⟩
      by_cases hc : Γ.toInt c = ch <;> simp [parser, Env.special, Env.operatorCall, hc]
  | charFilter f =>
      refine judged_test (fun c => Γ.filter f (Γ.toInt c)) rfl rfl (fun _ => id) ⟨1, rfl⟩
        fun c t => ⟨1, ?_⟩
      by_cases hc : Γ.filter f (Γ.toInt c) = true <;>
        simp [parser, Env.special, Env.operatorCall, hc]
  | anyChar => exact judged_test (fun _ => true) rfl rfl (fun _ => id) ⟨1, rfl⟩ fun c t => ⟨1, rfl⟩
  | @charClass rules h ih =>
      have htester := judged_charClass htable (fun g hg => (h g hg).isSingleCharRule)
        fun g hg => (ih g hg).1.fine
      exact ⟨htester, htester⟩
  | unless_ _ _ ihr ihd => exact ⟨judged_unless ihr.2 ihd.2, judged_unless ihr.2 ihd.2⟩
  | force _ ih => exact ⟨judged_force ih.2, judged_force ih.2⟩
  | @forwardRef m _ ih =>
      have hself : Γ.Judged (.forwardRef m) := by
        refine ih.1.congr (fun s r => ?_) fun s => swallowed_forwardRef
        rw [parserReturns_iff, parserReturns_iff, parserOutcome_eq]
        rfl
      exact ⟨hself, hself⟩
  | @either gs hne h ih =>
      have htable' (rules : List (Rule ρ φ)) (hr : ∀ g ∈ rules, g ∈ gs) :
          Γ.Judged (.charClass rules) :=
        judged_charClass htable (fun g hg => (h g (hr g hg)).isSingleCharRule)
          fun g hg => (ih g (hr g hg)).1.fine
      -- the alternatives after the first are a table, unless there is only one
      have hoptimized (rules : List (Rule ρ φ)) (hnil : rules ≠ []) (hr : ∀ g ∈ rules, g ∈ gs) :
          Γ.Judged (Γ.optimized (.either rules)) := by
        obtain ⟨first, rest, rfl⟩ := List.exists_cons_of_ne_nil hnil
        have hsingle : (Rule.either (first :: rest)).isSingleCharRule Γ.single = true :=
          Rule.isSingleCharRule_trueForAll.2 fun g hg => (h g (hr g hg)).isSingleCharRule
        simp only [Env.optimized, hsingle, if_true]
        exact htable' _ hr
      refine ⟨?_, hoptimized gs hne fun _ hg => hg⟩
      rcases gs with _ | ⟨first, _ | ⟨second, _ | ⟨third, rest⟩⟩⟩
      · exact absurd rfl hne
      · refine (ih first (by simp)).1.congr (fun s r => ?_) fun s => swallowed_inherits rfl id
        rw [parserReturns_iff, parserReturns_iff, parserOutcome_eq]
        rfl
      · exact judged_either rfl (fun _ => id) (ih first (by simp)).2 (ih second (by simp)).2
      · exact judged_either rfl (fun _ => id) (ih first (by simp)).2
          (hoptimized _ (by simp) fun g hg => List.mem_cons_of_mem _ hg)

/-- **The trait of single-character rules is sound on an input if and only if no failure is
swallowed there**: on the branch that the parser of the rule takes there is no `Force` whose rule
gets nowhere, and at the end of the input no `Unless` that rejects because of one. -/
theorem single_char_iff (Γ : Env ρ φ κ) (htable : ∀ c, Γ.inTable (Γ.toInt c) = true)
    (g : Rule ρ φ) (hg : Γ.Nest g) (s : List κ) :
    ((s = [] → ∃ r, ParserReturns Γ g s r ∧ r.error = .incomplete) ∧
        ∀ c t, s = c :: t → ∃ r, (∀ t', ParserReturns Γ g (c :: t') r) ∧
          (r = .success 1 ∨ r.ok = false ∧ r.error ≠ .incomplete)) ↔
      ¬ ∃ f, Γ.ComesTo s f g ∧ Γ.Swallows s f :=
  (hg.judged htable).1.iff s

/-- A `Force` that is come to where its rule reads a character. -/
theorem single_char_iff_force :
    ((bytes "b" = [] → ∃ r, ParserReturns octets (.either [.literal [ch 'a'], .force .anyChar])
          (bytes "b") r ∧ r.error = .incomplete) ∧
        ∀ c t, bytes "b" = c :: t → ∃ r, (∀ t', ParserReturns octets
            (.either [.literal [ch 'a'], .force .anyChar]) (c :: t') r) ∧
          (r = .success 1 ∨ r.ok = false ∧ r.error ≠ .incomplete)) ↔
      ¬ ∃ f, octets.ComesTo (bytes "b") f (.either [.literal [ch 'a'], .force .anyChar]) ∧
        octets.Swallows (bytes "b") f := by
  refine single_char_iff octets octets_inTable _ (.either (by simp) fun g hg => ?_) (bytes "b")
  rcases List.mem_pair.1 hg with rfl | rfl
  · exact .literal _
  · exact .force .anyChar

/-- `Force` has the trait of its rule, and accepts nothing, at the end of the input and before a
character that its rule rejects. -/
theorem single_char_swallowed :
    octets.Nest (.force (.literal [ch 'a'])) ∧
      (Rule.force (.literal [ch 'a']) : Grammar).isSingleCharRule octets.single = true ∧
      ParserReturns octets (.force (.literal [ch 'a'])) [] (.success 0) ∧
      ParserReturns octets (.force (.literal [ch 'a'])) (bytes "b") (.success 0) :=
  ⟨.force (.literal _), rfl, ⟨3, rfl⟩, ⟨3, by decide⟩⟩

end Hittop
