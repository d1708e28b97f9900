/-
**The recognizers of the three grammars.**

Except for `comment` and JSON's `Value` the forward references of the grammars are not recursive, so
that the recognizer of a rule is computed from the bodies of the references, a few levels deep.

Main definitions:

* `Hittop.Name.recognizer` — the recognizer of a metafunction;
* `Hittop.recognizer` — the recognizer of a rule;

Main results:

* `Hittop.meaning_none_recognizer` — a parse without a visitor has the verdicts of the recognizer;
* `Hittop.meaning_some_recognizer` — so has a parse with a visitor that is callable with none of the
  rules below.
-/

import Hittop.Denotation
import Hittop.Environment

set_option relaxedAutoImplicit false
set_option autoImplicit false

namespace Hittop

variable {κ ν σ : Type}

/-- The environment for a reading of the characters, with lookup tables of 256 entries. -/
abbrev reading (toInt : κ → ℤ) : Env Name Cctype κ := environment toInt inLookup

/-- The characters are values that a lookup table has an entry for. -/
def InLookup (toInt : κ → ℤ) : Prop := ∀ c, inLookup (toInt c) = true

theorem octet_inLookup : InLookup octet := by
  intro c
  have hlt : c.toNat < 256 := c.toNat_lt
  have hbound : 0 ≤ octet c ∧ octet c < 256 := by
    unfold octet
    omega
  exact decide_eq_true hbound

/-! ### The forward references -/

/-- The metafunction does not refer to itself. -/
def Name.settled : Name → Bool
  | comment_t | Value_ => false
  | _ => true

/-- How deep the references of a metafunction go. -/
def Name.level : Name → ℕ
  | LWS_ => 1
  | field_value_ => 2
  | message_header_ => 3
  | _ => 0

/-- `m'` is settled before `m`. -/
def Name.below (m m' : Name) : Bool := m'.settled && decide (m'.level < m.level)

theorem Name.type_refersTo {m : Name} (h : m.settled = true) :
    m.type.Each (Rule.RefersTo m.below) := by
  cases m <;> first | decide | cases h

/-- The recognizers of the metafunctions, `n` levels of references deep. -/
def Name.recognizerTo (toInt : κ → ℤ) : ℕ → Name → Recognizer κ
  | 0, _ => .fail
  | n + 1, m => (reading toInt).recognizer (recognizerTo toInt n) m.type

/-- The recognizer of a metafunction that does not refer to itself. -/
def Name.recognizer (toInt : κ → ℤ) (m : Name) : Recognizer κ := m.recognizerTo toInt 4

/-- The recognizer of a rule. -/
def recognizer (toInt : κ → ℤ) (g : Grammar) : Recognizer κ :=
  (reading toInt).recognizer (Name.recognizer toInt) g

theorem Name.recognizerTo_eq (toInt : κ → ℤ) {j k : ℕ} {m : Name} (h : m.settled = true)
    (hj : m.level < j) (hk : m.level < k) :
    m.recognizerTo toInt j = m.recognizerTo toInt k := by
  induction j generalizing k m with
  | zero => omega
  | succ j ih =>
      obtain ⟨k, rfl⟩ : ∃ i, k = i + 1 := ⟨k - 1, by omega⟩
      refine Env.recognizer_congr _ (fun m' hm' => ?_) m.type (Name.type_refersTo h)
      simp only [Name.below, Bool.and_eq_true, decide_eq_true_eq] at hm'
      exact ih hm'.1 (by omega) (by omega)

theorem Name.recognizer_eq (toInt : κ → ℤ) {m : Name} (h : m.settled = true) :
    m.recognizer toInt = Hittop.recognizer toInt m.type := by
  have hlevel : m.level ≤ 3 := by cases m <;> decide
  refine Env.recognizer_congr _ (fun m' hm' => ?_) m.type (Name.type_refersTo h)
  simp only [Name.below, Bool.and_eq_true, decide_eq_true_eq] at hm'
  have h₃ : m'.level < 3 := by omega
  exact Name.recognizerTo_eq toInt hm'.1 h₃ (Nat.lt_succ_of_lt h₃)

/-! ### The recognizers of the combinators -/

section Equations

variable (toInt : κ → ℤ) (a b c : Grammar) (rest : List Grammar)

theorem recognizer_lit (x : Char) : recognizer toInt (Uri.Grammar.lit x) =
    .satisfy fun c => decide (toInt c = ch x) := Recognizer.text_singleton

theorem recognizer_charFilter (f : Cctype) :
    recognizer toInt (.charFilter f) = .satisfy fun c => f.test (toInt c) := rfl

theorem recognizer_anyChar : recognizer toInt .anyChar = .satisfy fun _ => true := rfl

theorem recognizer_pair :
    recognizer toInt (.concat [a, b]) = .seq (recognizer toInt a) (recognizer toInt b) := by
  simp [recognizer, Env.recognizer, Env.recognizer.inSequence]

theorem recognizer_concat : recognizer toInt (.concat (a :: b :: c :: rest)) =
    .seq (recognizer toInt a) (recognizer toInt (.concat (b :: c :: rest))) := rfl

theorem recognizer_choice :
    recognizer toInt (.either [a, b]) = .alt (recognizer toInt a) (recognizer toInt b) := by
  simp [recognizer, Env.recognizer, Env.recognizer.firstOf]

theorem recognizer_either : recognizer toInt (.either (a :: b :: c :: rest)) =
    .alt (recognizer toInt a) (recognizer toInt (.either (b :: c :: rest))) := rfl

theorem recognizer_opt : recognizer toInt (.opt a) = .opt (recognizer toInt a) := rfl

theorem recognizer_unless : recognizer toInt (.unless_ a b) =
    .exclude (recognizer toInt a) (recognizer toInt b) := rfl

theorem recognizer_repeat : recognizer toInt (.repeat_ a) = .star (recognizer toInt a) := rfl

theorem recognizer_repeatAndThen (size : ℕ) : recognizer toInt (.repeatAndThen a b size) =
    .starThen size (recognizer toInt a) (recognizer toInt b) := rfl

theorem recognizer_atLeast_one : recognizer toInt (.atLeast 1 a) =
    .seq (recognizer toInt a) (.star (recognizer toInt a)) := by
  simp [recognizer, Env.recognizer, Recognizer.power]

theorem recognizer_inter : recognizer toInt (.inter a b) =
    .opt (.seq (recognizer toInt a) (.star (.seq (recognizer toInt b) (recognizer toInt a)))) := rfl

theorem recognizer_impliedDelim : recognizer toInt (.impliedDelim a (b :: c :: rest)) =
    .seq (recognizer toInt b) (.seq (recognizer toInt a)
      (recognizer toInt (.impliedDelim a (c :: rest)))) := rfl

theorem recognizer_impliedDelim_singleton :
    recognizer toInt (.impliedDelim a [b]) = recognizer toInt b := rfl

theorem recognizer_forwardRef (m : Name) (h : m.settled = true) :
    recognizer toInt (.forwardRef m) = recognizer toInt m.type := m.recognizer_eq toInt h

end Equations

/-! ### Parsing without a visitor -/

section

variable {toInt : κ → ℤ} (hlookup : InLookup toInt) {V : Visitors Name Cctype κ ν σ}
include hlookup

theorem meaning_none_eq_parserMeaning {g : Grammar} (hg : (reading toInt).Regular g) :
    meaning (reading toInt) V none g = parserMeaning (reading toInt) V none g :=
  meaning_none_eq (regular_type toInt inLookup) hlookup hg

/-- A metafunction that does not refer to itself has the verdicts of its recognizer. -/
theorem parserMeaning_type {m : Name} (h : m.settled = true) :
    parserMeaning (reading toInt) V none m.type = Meaning.lift (m.recognizer toInt) := by
  induction hn : m.level using Nat.strongRecOn generalizing m with
  | ind n ih =>
      have hquiet : (reading toInt).quiet (fun _ => true) m.below 64 m.type = true := by
        cases m <;> first | rfl | cases h
      rw [m.recognizer_eq toInt h]
      refine parserMeaning_eq_recognizer (regular_type toInt inLookup)
        (fun g hg _ => meaning_none_eq_parserMeaning hlookup hg) (fun m' hm' => ?_) 64
        (regular_type toInt inLookup m) hquiet
      simp only [Name.below, Bool.and_eq_true, decide_eq_true_eq] at hm'
      exact ih m'.level (by omega) hm'.1 rfl

/-- **A parse without a visitor has the verdicts of the recognizer.** -/
theorem meaning_none_recognizer {n : ℕ} {g : Grammar} (hg : (reading toInt).Regular g)
    (hq : (reading toInt).quiet (fun _ => true) Name.settled n g = true) :
    meaning (reading toInt) V none g = Meaning.lift (recognizer toInt g) := by
  rw [meaning_none_eq_parserMeaning hlookup hg]
  exact parserMeaning_eq_recognizer (regular_type toInt inLookup)
    (fun g hg _ => meaning_none_eq_parserMeaning hlookup hg)
    (fun m hm => parserMeaning_type hlookup hm) n hg hq

end

/-- Such a parse returns. -/
theorem exists_parses {toInt : κ → ℤ} (hlookup : InLookup toInt) {n : ℕ} {g : Grammar} (s : List κ)
    (hg : (reading toInt).Regular g)
    (hq : (reading toInt).quiet (fun _ => true) Name.settled n g = true) :
    ∃ r, Parses (reading toInt) g s r ∧ r.verdict = recognizer toInt g s := by
  have hmeaning := meaning_none_recognizer (V := noVisitors Name Cctype κ) hlookup hg hq
  have hrun : meaning (reading toInt) (noVisitors Name Cctype κ) none g s () =
      .ok (recognizer toInt g s, ()) := congrFun (congrFun hmeaning s) ()
  obtain ⟨r, hr, hv⟩ := Exec.verdict_ok_iff.1 hrun
  exact ⟨r, parses_iff.2 hr, hv⟩

/-- Where a parse returns, it accepts what its verdict says. -/
theorem parses_success_iff {toInt : κ → ℤ} {g : Grammar} {s : List κ} {v : Verdict} {k : ℕ}
    (h : ∃ r, Parses (reading toInt) g s r ∧ r.verdict = v) :
    Parses (reading toInt) g s (.success k) ↔ v = .accept k := by
  obtain ⟨r, hr, rfl⟩ := h
  rw [ParseResult.verdict_eq_accept]
  exact ⟨fun hk => hr.unique hk, fun hk => hk ▸ hr⟩

theorem Parses.verdict_eq {toInt : κ → ℤ} (hlookup : InLookup toInt) {n : ℕ} {g : Grammar}
    {s : List κ} {r : ParseResult} (h : Parses (reading toInt) g s r)
    (hg : (reading toInt).Regular g)
    (hq : (reading toInt).quiet (fun _ => true) Name.settled n g = true) :
    r.verdict = recognizer toInt g s := by
  obtain ⟨r', h', hv⟩ := exists_parses hlookup s hg hq
  rw [h.unique h', hv]

/-! ### Parsing with a visitor that is not called -/

section

variable {toInt : κ → ℤ} {V : Visitors Name Cctype κ ν σ} {v : ν} {q : Grammar → Bool}
  {r : Name → Bool}

/-- The forward references `r` whose bodies hand no rule to `Parse` that the visitor is callable
with. -/
theorem parserMeaning_some_type (hq : ∀ g, q g = true → V.operator v g = none)
    (hr : ∀ m, r m = true → m.settled = true ∧
      (reading toInt).quiet q (fun m' => r m' && m.below m') 64 m.type = true) {m : Name}
    (h : r m = true) :
    parserMeaning (reading toInt) V (some v) m.type = Meaning.lift (m.recognizer toInt) := by
  induction hn : m.level using Nat.strongRecOn generalizing m with
  | ind n ih =>
      rw [m.recognizer_eq toInt (hr m h).1]
      refine parserMeaning_eq_recognizer (regular_type toInt inLookup)
        (fun g _ hg => meaning_some (hq g hg)) (fun m' hm' => ?_) 64
        (regular_type toInt inLookup m) (hr m h).2
      simp only [Name.below, Bool.and_eq_true, decide_eq_true_eq] at hm'
      exact ih m'.level (by omega) hm'.1 rfl

/-- **A parse with a visitor that is called with no rule has the verdicts of the recognizer**, and
leaves the state alone. -/
theorem meaning_some_recognizer (hq : ∀ g, q g = true → V.operator v g = none)
    (hr : ∀ m, r m = true → m.settled = true ∧
      (reading toInt).quiet q (fun m' => r m' && m.below m') 64 m.type = true) {g : Grammar}
    (hg : (reading toInt).Regular g) (hself : q g = true)
    (hquiet : (reading toInt).quiet q r 64 g = true) :
    meaning (reading toInt) V (some v) g = Meaning.lift (recognizer toInt g) := by
  rw [meaning_some (hq g hself)]
  exact parserMeaning_eq_recognizer (regular_type toInt inLookup)
    (fun g _ hg => meaning_some (hq g hg)) (fun m hm => parserMeaning_some_type hq hr hm) 64 hg
    hquiet

end

end Hittop
