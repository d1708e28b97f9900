/-
**The parse of a JSON value**, from the rules down.

`Value` refers to itself through `ForwardRef`, but every reference stands behind a bracket, a brace
or a colon: what a value is, is settled by what the shorter values are.  This module reads the parse
of arrays, objects and members off the rules, with or without a visitor, and gives `Value` a
recognizer.

Main definitions:

* `Hittop.Json.plain` — the rules that no visitor of JSON values is callable with;
* `Hittop.Meaning.trimmed`, `separated`, `enclosed` — the shapes of the rules;
* `Hittop.Meaning.AgreeTo` — agreement on short lists;
* `Hittop.Json.value` — the recognizer of `Value`.

Main results:

* `Hittop.Json.parserMeaning_array`, `parserMeaning_object`, `parserMeaning_property`,
  `parserMeaning_value` — the equations of the rules;
* `Hittop.Json.meaning_none_value` — a parse of `Value` without a visitor is its recognizer;
* `Hittop.Json.value_eq` — the equation of the recognizer.
-/

import Hittop.Grammars
import Hittop.Library.Guarded
import Hittop.Recording

set_option relaxedAutoImplicit false
set_option autoImplicit false

namespace Hittop

variable {κ ν σ : Type}

/-! ### Shapes of rules -/

namespace Meaning

variable (toInt : κ → ℤ) (m : Meaning κ σ)

/-- The parse of one character. -/
def char (x : Char) : Meaning κ σ := lift (recognizer toInt (Uri.Grammar.lit x))

/-- `Trim`. -/
def trimmed : Meaning κ σ :=
  (lift (reading toInt).spaces).seq (m.seq (lift (reading toInt).spaces))

/-- `Inter`, with commas. -/
def separated : Meaning κ σ := (m.seq ((char toInt ',').seq m).loop).opt

/-- `m` between two characters, trimmed. -/
def enclosed (first last : Char) : Meaning κ σ :=
  trimmed toInt ((char toInt first).seq (m.seq (char toInt last)))

/-! ### Agreement on short lists -/

section Agree

variable {n : ℕ} {p p' q q' : Meaning κ σ}

theorem agree_seq (hp : AgreeTo n p p') (hq : AgreeTo n q q') :
    AgreeTo n (p.seq q) (p'.seq q') := by
  intro s hs
  have hdrop (k : ℕ) : q (s.drop k) = q' (s.drop k) :=
    hq _ (by rw [List.length_drop]; omega)
  simp only [seq, hp s hs, hdrop]

/-- What follows a character is on a shorter list. -/
theorem agree_satisfy_seq {c : κ → Bool} (hq : AgreeTo n q q') :
    AgreeTo (n + 1) ((lift (.satisfy c)).seq q) ((lift (.satisfy c)).seq q') := by
  intro s hs
  cases s with
  | nil => rfl
  | cons a s =>
      have hrest : q s = q' s := hq s (by simpa using hs)
      by_cases ha : c a = true <;> simp [seq, lift, ha, hrest]

theorem agree_alt (hp : AgreeTo n p p') (hq : AgreeTo n q q') :
    AgreeTo n (p.alt q) (p'.alt q') := by
  intro s hs
  simp only [alt, hp s hs, hq s hs]

theorem agree_opt (hp : AgreeTo n p p') : AgreeTo n p.opt p'.opt := agree_alt hp .refl

theorem agree_loop (hp : AgreeTo n p p') : AgreeTo n p.loop p'.loop := by
  intro s hs
  have hfrom (k : ℕ) : AgreeTo n (p.loopFrom k) (p'.loopFrom k) := by
    induction k with
    | zero => exact .refl
    | succ k ih =>
        intro s hs
        have hdrop (i : ℕ) : p.loopFrom k (s.drop i) = p'.loopFrom k (s.drop i) :=
          ih _ (by rw [List.length_drop]; omega)
        simp only [loopFrom, turn, hp s hs, hdrop]
  exact hfrom _ s hs

theorem agree_trimmed (hp : AgreeTo n p p') :
    AgreeTo n (p.trimmed toInt) (p'.trimmed toInt) :=
  agree_seq .refl (agree_seq hp .refl)

theorem agree_separated (hp : AgreeTo n p p') :
    AgreeTo n (p.separated toInt) (p'.separated toInt) :=
  agree_opt (agree_seq hp (agree_loop (agree_seq .refl hp)))

/-- What is enclosed is on a shorter list. -/
theorem agree_enclosed (first last : Char) (hp : AgreeTo n p p') :
    AgreeTo (n + 1) (p.enclosed toInt first last) (p'.enclosed toInt first last) := by
  refine agree_trimmed toInt ?_
  rw [char, recognizer_lit]
  exact agree_satisfy_seq (agree_seq hp .refl)

end Agree

end Meaning

/-! ### Shapes of recognizers -/

namespace Json

variable (toInt : κ → ℤ) (f : Recognizer κ)

/-- The character is read by a `Trim`. -/
def space (c : κ) : Bool := Cctype.isspace.test (toInt c)

def char (x : Char) : Recognizer κ := recognizer toInt (Uri.Grammar.lit x)

def trim : Recognizer κ := (reading toInt).spaces.seq (f.seq (reading toInt).spaces)

def inter : Recognizer κ := (f.seq ((char toInt ',').seq f).star).opt

def enclose (first last : Char) : Recognizer κ :=
  trim toInt ((char toInt first).seq (f.seq (char toInt last)))

end Json

namespace Meaning

variable (toInt : κ → ℤ) (f : Recognizer κ)

theorem loop_lift : (lift f : Meaning κ σ).loop = lift f.star :=
  turn_unique (loop_eq fun _ _ _ _ h => Recognizer.le_length (Prod.mk.inj (Except.ok.inj h)).1)

@[simp] theorem trimmed_lift : (lift f : Meaning κ σ).trimmed toInt = lift (Json.trim toInt f) := by
  rw [trimmed, seq_lift, seq_lift]
  rfl

@[simp] theorem separated_lift :
    (lift f : Meaning κ σ).separated toInt = lift (Json.inter toInt f) := by
  rw [separated, char, seq_lift, loop_lift, seq_lift, opt, alt_lift]
  rfl

@[simp] theorem enclosed_lift (first last : Char) :
    (lift f : Meaning κ σ).enclosed toInt first last = lift (Json.enclose toInt f first last) := by
  rw [enclosed, char, char, seq_lift, seq_lift, trimmed_lift]
  rfl

end Meaning

namespace Json

open Grammar Meaning
open Uri.Grammar (lit)

/-! ### The equations of the rules -/

/-- The rules that a visitor of JSON values may be callable with. -/
def visited : List Grammar :=
  [StringContents, Number, Object, Grammar.Array, Grammar.Boolean, Null, Grammar.Value, Property]

/-- No visitor of JSON values is callable with the rule. -/
def plain (g : Grammar) : Bool := decide (g ∉ visited)

theorem regular_of {toInt : κ → ℤ} {g : Grammar}
    (h : g.Each (Rule.RegularHead fun m => decide (m = .Star_))) : (reading toInt).Regular g := h

section Equations

variable {toInt : κ → ℤ} {V : Visitors Name Cctype κ ν σ} {args : Option ν}

/-- The rules that are not visited are parsed by their parsers. -/
def Unvisited (toInt : κ → ℤ) (V : Visitors Name Cctype κ ν σ) (args : Option ν) : Prop :=
  ∀ g, (reading toInt).Regular g → plain g = true →
    meaning (reading toInt) V args g = parserMeaning (reading toInt) V args g

variable (hplain : Unvisited toInt V args)
include hplain

/-- A rule without values is parsed like its recognizer. -/
theorem parserMeaning_quiet {g : Grammar}
    (hg : g.Each (Rule.RegularHead fun m => decide (m = .Star_)))
    (hquiet : (reading toInt).quiet plain (fun _ => false) 32 g = true) :
    parserMeaning (reading toInt) V args g = lift (recognizer toInt g) :=
  parserMeaning_eq_recognizer (regular_type toInt inLookup) hplain (fun m hm => by cases hm) 32
    (regular_of hg) hquiet

theorem meaning_quiet {g : Grammar} (hg : g.Each (Rule.RegularHead fun m => decide (m = .Star_)))
    (hself : plain g = true)
    (hquiet : (reading toInt).quiet plain (fun _ => false) 32 g = true) :
    meaning (reading toInt) V args g = lift (recognizer toInt g) := by
  rw [hplain g (regular_of hg) hself]
  exact parserMeaning_quiet hplain hg hquiet

theorem meaning_lit (x : Char) :
    meaning (reading toInt) V args (lit x) = Meaning.char toInt x :=
  meaning_quiet hplain (by simp [Rule.Each, Rule.RegularHead]) rfl rfl

theorem meaning_forceSpaces :
    meaning (reading toInt) V args (reading toInt).forceSpaces = lift (reading toInt).spaces :=
  meaning_quiet hplain (g := .force (.repeat_ (.charFilter .isspace))) (by decide) (by decide) rfl

/-- `Parser<Trim<Grammar>>`. -/
theorem parserMeaning_trim {g : Grammar} (hg : (reading toInt).Regular g)
    (hpair : plain (.concat [g, (reading toInt).forceSpaces]) = true) :
    parserMeaning (reading toInt) V args (.trim g) =
      (meaning (reading toInt) V args g).trimmed toInt := by
  have hrest : meaning (reading toInt) V args (.concat [g, (reading toInt).forceSpaces]) =
      (meaning (reading toInt) V args g).seq (lift (reading toInt).spaces) := by
    have hreg : (reading toInt).Regular (.concat [g, (reading toInt).forceSpaces]) := by
      simpa [Env.Regular, Rule.Each, Rule.RegularHead, Env.forceSpaces] using hg
    rw [hplain _ hreg hpair, parserMeaning_concat rfl, meaning_forceSpaces hplain]
  rw [parserMeaning_inherits rfl, parserMeaning_concat rfl, meaning_forceSpaces hplain, hrest]
  rfl

theorem meaning_trim {g : Grammar} (hg : (reading toInt).Regular g)
    (hself : plain (.trim g) = true)
    (hpair : plain (.concat [g, (reading toInt).forceSpaces]) = true) :
    meaning (reading toInt) V args (.trim g) =
      (meaning (reading toInt) V args g).trimmed toInt := by
  have hreg : (reading toInt).Regular (.trim g) := by
    simpa [Env.Regular, Rule.Each, Rule.RegularHead] using hg
  rw [hplain _ hreg hself, parserMeaning_trim hplain hg hpair]

/-- `Parser<Inter<Item, Literal<','>>>`. -/
theorem parserMeaning_inter {item : Grammar} (hitem : (reading toInt).Regular item)
    (hall : ∀ g ∈ ([.concat [item, .repeat_ (.concat [lit ',', item])],
      .repeat_ (.concat [lit ',', item]), .concat [lit ',', item]] : List Grammar),
      plain g = true) :
    parserMeaning (reading toInt) V args (.inter item (lit ',')) =
      (meaning (reading toInt) V args item).separated toInt := by
  have hreg : ∀ g ∈ ([.concat [item, .repeat_ (.concat [lit ',', item])],
      .repeat_ (.concat [lit ',', item]), .concat [lit ',', item]] : List Grammar),
      (reading toInt).Regular g := by
    simpa [Env.Regular, Rule.Each, Rule.RegularHead] using hitem
  have hmeaning : ∀ g ∈ ([.concat [item, .repeat_ (.concat [lit ',', item])],
      .repeat_ (.concat [lit ',', item]), .concat [lit ',', item]] : List Grammar),
      meaning (reading toInt) V args g = parserMeaning (reading toInt) V args g :=
    fun g hg => hplain g (hreg g hg) (hall g hg)
  have hturn : meaning (reading toInt) V args (.concat [lit ',', item]) =
      (Meaning.char toInt ',').seq (meaning (reading toInt) V args item) := by
    rw [hmeaning _ (by simp), parserMeaning_concat rfl, meaning_lit hplain]
  have hrepeat : meaning (reading toInt) V args (.repeat_ (.concat [lit ',', item])) =
      ((Meaning.char toInt ',').seq (meaning (reading toInt) V args item)).loop := by
    rw [hmeaning _ (by simp), parserMeaning_loop rfl, hturn]
  have hsuccess : meaning (reading toInt) V args (.success) = lift .eps :=
    meaning_quiet hplain (by decide) rfl rfl
  rw [parserMeaning_inherits rfl, parserMeaning_inherits rfl, parserMeaning_either rfl, hsuccess,
    hmeaning _ (by simp), parserMeaning_concat rfl, hrepeat]
  rfl

/-- A separated list between two characters, trimmed. -/
theorem parserMeaning_enclosed {item : Grammar} {first last : Char}
    (hitem : (reading toInt).Regular item)
    (hall : ∀ g ∈ ([.concat [item, .repeat_ (.concat [lit ',', item])],
      .repeat_ (.concat [lit ',', item]), .concat [lit ',', item]] : List Grammar),
      plain g = true)
    (hinter : plain (.inter item (lit ',')) = true) :
    parserMeaning (reading toInt) V args
        (.trim (.concat [lit first, .inter item (lit ','), lit last])) =
      ((meaning (reading toInt) V args item).separated toInt).enclosed toInt first last := by
  have hreg : (reading toInt).Regular (.inter item (lit ',')) := by
    simpa [Env.Regular, Rule.Each, Rule.RegularHead] using hitem
  have hlist : meaning (reading toInt) V args (.inter item (lit ',')) =
      (meaning (reading toInt) V args item).separated toInt := by
    rw [hplain _ hreg hinter, parserMeaning_inter hplain hitem hall]
  have hrest : meaning (reading toInt) V args (.concat [.inter item (lit ','), lit last]) =
      ((meaning (reading toInt) V args item).separated toInt).seq (Meaning.char toInt last) := by
    rw [hplain _ (by simpa [Env.Regular, Rule.Each, Rule.RegularHead] using hreg) rfl,
      parserMeaning_concat rfl, hlist, meaning_lit hplain]
  have hconcat : (reading toInt).Regular
      (.concat [lit first, .inter item (lit ','), lit last]) := by
    simpa [Env.Regular, Rule.Each, Rule.RegularHead] using hreg
  rw [parserMeaning_trim hplain hconcat rfl, hplain _ hconcat rfl, parserMeaning_concat rfl, hrest,
    meaning_lit hplain]
  rfl

/-- `Parser<Array>`. -/
theorem parserMeaning_array :
    parserMeaning (reading toInt) V args Grammar.Array =
      (((meaning (reading toInt) V args Grammar.Value).trimmed toInt).separated toInt).enclosed
        toInt '[' ']' := by
  rw [← meaning_trim hplain (regular_of (by decide)) (by decide) rfl]
  exact parserMeaning_enclosed hplain (regular_of (by decide)) (by decide) (by decide)

/-- `Parser<Object>`. -/
theorem parserMeaning_object :
    parserMeaning (reading toInt) V args Object =
      ((meaning (reading toInt) V args Property).separated toInt).enclosed toInt '{' '}' :=
  parserMeaning_enclosed hplain (regular_of (by decide)) (by decide) (by decide)

/-- `Parser<Property>`. -/
theorem parserMeaning_property :
    parserMeaning (reading toInt) V args Property =
      ((meaning (reading toInt) V args Grammar.String).trimmed toInt).seq
        ((Meaning.char toInt ':').seq
          ((meaning (reading toInt) V args Grammar.Value).trimmed toInt)) := by
  have hrest : meaning (reading toInt) V args (.concat [lit ':', .trim Grammar.Value]) =
      (Meaning.char toInt ':').seq
        ((meaning (reading toInt) V args Grammar.Value).trimmed toInt) := by
    rw [hplain _ (regular_of (by decide)) (by decide), parserMeaning_concat rfl,
      meaning_lit hplain, meaning_trim hplain (regular_of (by decide)) (by decide) rfl]
  rw [Property, parserMeaning_concat rfl, hrest,
    meaning_trim hplain (regular_of (by decide)) (by decide) rfl]

/-- `Parser<String>`. -/
theorem parserMeaning_string :
    parserMeaning (reading toInt) V args Grammar.String =
      (meaning (reading toInt) V args StringContents).enclosed toInt '"' '"' := by
  have hrest : meaning (reading toInt) V args (.concat [StringContents, lit '"']) =
      (meaning (reading toInt) V args StringContents).seq (Meaning.char toInt '"') := by
    rw [hplain _ (regular_of (by decide)) (by decide), parserMeaning_concat rfl,
      meaning_lit hplain]
  rw [Grammar.String, parserMeaning_trim hplain (regular_of (by decide)) rfl,
    hplain _ (regular_of (by decide)) (by decide), parserMeaning_concat rfl, hrest,
    meaning_lit hplain]
  rfl

/-- `Parser<Value>`. -/
theorem parserMeaning_value :
    parserMeaning (reading toInt) V args Value_type =
      (meaning (reading toInt) V args Grammar.String).alt
        ((meaning (reading toInt) V args Number).alt
          ((meaning (reading toInt) V args Object).alt
            ((meaning (reading toInt) V args Grammar.Array).alt
              ((meaning (reading toInt) V args Grammar.Boolean).alt
                (meaning (reading toInt) V args Null))))) := by
  have hrest {g a b : Grammar} (hg : g.Each (Rule.RegularHead fun m => decide (m = .Star_)))
      (hself : plain g = true) (h : (reading toInt).special g = .either a b) :
      meaning (reading toInt) V args g =
        (meaning (reading toInt) V args a).alt (meaning (reading toInt) V args b) := by
    rw [hplain g (regular_of hg) hself, parserMeaning_either h]
  rw [Value_type, parserMeaning_either rfl,
    hrest (g := .either [Number, Object, Grammar.Array, Grammar.Boolean, Null])
      (by decide) (by decide) rfl,
    hrest (g := .either [Object, Grammar.Array, Grammar.Boolean, Null]) (by decide) (by decide) rfl,
    hrest (g := .either [Grammar.Array, Grammar.Boolean, Null]) (by decide) (by decide) rfl,
    hrest (g := .either [Grammar.Boolean, Null]) (by decide) (by decide) rfl]

end Equations

/-! ### Strings and numbers -/

def intRule : Grammar := .either [lit '0', .concat [digit_1_9, .repeat_ digit]]

def fractionRule : Grammar := .concat [lit '.', .atLeast 1 digit]

def exponentRule : Grammar :=
  .concat [.either [lit 'e', lit 'E'], .opt (.either [lit '+', lit '-']), .atLeast 1 digit]

theorem recognizer_number (toInt : κ → ℤ) : recognizer toInt Number = trim toInt
    ((recognizer toInt (.opt (lit '-'))).seq ((recognizer toInt intRule).seq
      ((recognizer toInt (.opt fractionRule)).seq (recognizer toInt (.opt exponentRule))))) := by
  rw [← recognizer_pair, ← recognizer_concat, ← recognizer_concat]
  rfl

def plainRule : Grammar := .unless_ (.either [lit '"', lit '\\', control_char]) .anyChar

def escapeRule : Grammar :=
  .either [lit '"', lit '\\', lit '/', lit 'b', lit 'f', lit 'n', lit 'r', lit 't',
    .concat [lit 'u', .exactly 4 hex_digit]]

def stringCharRule : Grammar := .either [plainRule, .concat [lit '\\', escapeRule]]

theorem recognizer_string (toInt : κ → ℤ) : recognizer toInt Grammar.String =
    enclose toInt (recognizer toInt StringContents) '"' '"' := by
  change trim toInt (recognizer toInt (.concat [lit '"', StringContents, lit '"'])) = _
  rw [recognizer_concat, recognizer_pair]
  rfl

/-! ### The recognizer of `Value` -/

section Value

variable (toInt : κ → ℤ)

/-- A member, where `v` are the values. -/
def property (v : Recognizer κ) : Recognizer κ :=
  (trim toInt (recognizer toInt Grammar.String)).seq ((char toInt ':').seq (trim toInt v))

def object (v : Recognizer κ) : Recognizer κ :=
  enclose toInt (inter toInt (property toInt v)) '{' '}'

def array (v : Recognizer κ) : Recognizer κ := enclose toInt (inter toInt (trim toInt v)) '[' ']'

/-- `Value`, where `v` are the values inside. -/
def valueOf (v : Recognizer κ) : Recognizer κ :=
  (recognizer toInt Grammar.String).alt ((recognizer toInt Number).alt
    ((object toInt v).alt ((array toInt v).alt
      ((recognizer toInt Grammar.Boolean).alt (recognizer toInt Null)))))

/-- The recognizer of `Value`. -/
def value : Recognizer κ := .fix (valueOf toInt)

/-- A member, where `m` are the values. -/
def parseProperty (m : Meaning κ σ) : Meaning κ σ :=
  ((lift (recognizer toInt Grammar.String)).trimmed toInt).seq
    ((Meaning.char toInt ':').seq (m.trimmed toInt))

/-- `Value`, where `m` are the values inside. -/
def parseValueOf (m : Meaning κ σ) : Meaning κ σ :=
  (lift (recognizer toInt Grammar.String)).alt ((lift (recognizer toInt Number)).alt
    ((((parseProperty toInt m).separated toInt).enclosed toInt '{' '}').alt
      ((((m.trimmed toInt).separated toInt).enclosed toInt '[' ']').alt
        ((lift (recognizer toInt Grammar.Boolean)).alt (lift (recognizer toInt Null))))))

theorem parseValueOf_lift (v : Recognizer κ) :
    parseValueOf toInt (lift v : Meaning κ σ) = lift (valueOf toInt v) := by
  simp only [parseValueOf, parseProperty, trimmed_lift, separated_lift, enclosed_lift, Meaning.char,
    seq_lift, alt_lift]
  rfl

theorem guarded_parseValueOf : Guarded (parseValueOf toInt : Meaning κ σ → Meaning κ σ) := by
  intro n m m' h
  have htrim : AgreeTo n (Meaning.trimmed toInt m) (Meaning.trimmed toInt m') :=
    agree_trimmed toInt h
  have hproperty : AgreeTo n (parseProperty toInt m) (parseProperty toInt m') :=
    agree_seq .refl (agree_seq .refl htrim)
  exact agree_alt .refl (agree_alt .refl
    (agree_alt (agree_enclosed toInt _ _ (agree_separated toInt hproperty))
      (agree_alt (agree_enclosed toInt _ _ (agree_separated toInt htrim)) .refl)))

theorem guardedBy_valueOf : Recognizer.GuardedBy (valueOf toInt) := by
  intro n f g h s hs
  have hlift : AgreeTo n (lift f : Meaning κ Unit) (lift g) :=
    fun s hs => congrArg pure (h s hs)
  have hstep := guarded_parseValueOf toInt n _ _ hlift s hs
  rw [parseValueOf_lift, parseValueOf_lift] at hstep
  exact (Prod.mk.inj (Except.ok.inj (congrFun hstep ()))).1

/-- **The equation of `Value`.** -/
theorem value_eq : value toInt = valueOf toInt (value toInt) :=
  Recognizer.fix_eq (guardedBy_valueOf toInt)

end Value

section

variable {toInt : κ → ℤ} (hlookup : InLookup toInt) {V : Visitors Name Cctype κ ν σ}
include hlookup

theorem unvisited_none : Unvisited toInt V none := fun _ hg _ =>
  meaning_none_eq_parserMeaning hlookup hg

/-- **A parse of `Value` without a visitor has the verdicts of its recognizer.** -/
theorem meaning_none_value :
    meaning (reading toInt) V none Grammar.Value = lift (value toInt) := by
  have hplain := unvisited_none (V := V) hlookup
  have hparser {g : Grammar} (hg : g.Each (Rule.RegularHead fun m => decide (m = .Star_))) :
      meaning (reading toInt) V none g = parserMeaning (reading toInt) V none g :=
    meaning_none_eq_parserMeaning hlookup (regular_of hg)
  have hquiet {g : Grammar} (hg : g.Each (Rule.RegularHead fun m => decide (m = .Star_)))
      (h : (reading toInt).quiet (fun _ => true) Name.settled 32 g = true) :
      meaning (reading toInt) V none g = lift (recognizer toInt g) :=
    meaning_none_recognizer hlookup (regular_of hg) h
  have hvalue : meaning (reading toInt) V none Grammar.Value =
      parserMeaning (reading toInt) V none Value_type := by
    rw [hparser (by decide)]
    exact parserMeaning_forwardRef (m := Name.Value_) rfl
  refine (guarded_parseValueOf toInt).unique (hvalue.trans ?_) ?_
  · rw [parserMeaning_value hplain, hquiet (g := Grammar.String) (by decide) rfl,
      hquiet (g := Number) (by decide) rfl, hquiet (g := Grammar.Boolean) (by decide) rfl,
      hquiet (g := Null) (by decide) rfl, hparser (g := Object) (by decide),
      parserMeaning_object hplain, hparser (g := Grammar.Array) (by decide),
      parserMeaning_array hplain, hparser (g := Property) (by decide),
      parserMeaning_property hplain, hquiet (g := Grammar.String) (by decide) rfl]
    rfl
  · rw [parseValueOf_lift, ← value_eq]

omit hlookup in
/-- Such a parse returns. -/
theorem exists_parses_value (hlookup : InLookup toInt) (s : List κ) :
    ∃ r, Parses (reading toInt) Grammar.Value s r ∧ r.verdict = value toInt s := by
  have hmeaning := meaning_none_value (V := noVisitors Name Cctype κ) hlookup
  have hrun : meaning (reading toInt) (noVisitors Name Cctype κ) none Grammar.Value s () =
      .ok (value toInt s, ()) := congrFun (congrFun hmeaning s) ()
  obtain ⟨r, hr, hv⟩ := Exec.verdict_ok_iff.1 hrun
  exact ⟨r, parses_iff.2 hr, hv⟩

omit hlookup in
theorem verdict_of_parses (hlookup : InLookup toInt) {s : List κ} {r : ParseResult}
    (h : Parses (reading toInt) Grammar.Value s r) : r.verdict = value toInt s := by
  obtain ⟨r', h', hv⟩ := exists_parses_value hlookup s
  rw [h.unique h', hv]

end

end Json

end Hittop
