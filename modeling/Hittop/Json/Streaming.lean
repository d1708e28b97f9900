/-
**Reading on never changes what a JSON value is.**

The two ends of a `Trim` take an end of the input for an end of the white space.  This is undone by
what stands around them: before a text a rule follows that asks for more, and behind it more white
space only adds to what was accepted.

Main results:

* `Hittop.Json.extends_value` — the answer about a value is final, up to white space at the end.
-/

import Hittop.Characters
import Hittop.Json.Reading
import Hittop.Library.Extension

set_option relaxedAutoImplicit false
set_option autoImplicit false

namespace Hittop.Json

open Grammar
open Recognizer (Extends Hungry)
open Uri.Grammar (lit)

variable {κ : Type} (toInt : κ → ℤ) {p : κ → Bool} {f : Recognizer κ}

theorem spaces_eq : (reading toInt).spaces = Recognizer.stretch (space toInt) := rfl

variable {toInt}

/-! ### The shapes of the rules -/

theorem extends_class {g : Grammar} (hg : g.isClass = true) : Extends p (recognizer toInt g) := by
  rw [recognizer_class hg]
  exact .satisfy

theorem hungry_class {g : Grammar} (hg : g.isClass = true) : Hungry (recognizer toInt g) := by
  rw [recognizer_class hg]
  exact Recognizer.hungry_satisfy

theorem extends_char (x : Char) : Extends p (char toInt x) := extends_class (g := lit x) rfl

theorem hungry_char (x : Char) : Hungry (char toInt x) := hungry_class (g := lit x) rfl

theorem hungry_spaces_seq (hungry : Hungry f) : Hungry ((reading toInt).spaces.seq f) := by
  rw [spaces_eq, Hungry, Recognizer.seq_of_accept (Recognizer.stretch_apply []), List.takeWhile_nil,
    List.length_nil, List.drop_nil, hungry]
  rfl

theorem hungry_trim (hungry : Hungry f) : Hungry (trim toInt f) := hungry_spaces_seq hungry.seq

/-- White space in front of a text is read along with the text. -/
theorem trim_append {w s : List κ} (hw : ∀ c ∈ w, space toInt c = true) :
    trim toInt f (w ++ s) = (trim toInt f s).advance w.length := by
  have hspaces := Recognizer.stretch_apply (p := space toInt) s
  have hspaces' := Recognizer.stretch_append_left (s := s) hw
  rw [hspaces, Verdict.advance_accept] at hspaces'
  rw [trim, spaces_eq, Recognizer.seq_of_accept hspaces, Recognizer.seq_of_accept hspaces',
    ← List.drop_drop, List.drop_left, Verdict.advance_advance]

/-- What is trimmed asks for more after the white space before it. -/
theorem extends_trim (hf : Extends (space toInt) f) (hungry : Hungry f) :
    Extends (space toInt) (trim toInt f) :=
  Extends.stretch.seq hf.seq_stretch hungry.seq

theorem extends_inter (hf : Extends p f) (hungry : Hungry f) : Extends p (inter toInt f) :=
  (hf.seq (((extends_char ',').seq hf hungry).star (hungry_char ',').seq)
    (hungry_char ',').seq.star).opt

theorem hungry_inter (hungry : Hungry f) : Hungry (inter toInt f) := hungry.seq.alt

theorem extends_enclose {first last : Char} (hf : Extends (space toInt) f) (hungry : Hungry f) :
    Extends (space toInt) (enclose toInt f first last) :=
  extends_trim ((extends_char first).seq (hf.seq (extends_char last) (hungry_char last)) hungry.seq)
    (hungry_char first).seq

theorem hungry_enclose {first last : Char} : Hungry (enclose toInt f first last) :=
  hungry_trim (hungry_char first).seq

/-! ### Leaves -/

theorem recognizer_boolean : recognizer toInt Grammar.Boolean =
    trim toInt ((recognizer toInt tokens.True).alt (recognizer toInt tokens.False)) := by
  rw [← recognizer_choice]
  rfl

theorem extends_stringChar : Extends p (recognizer toInt stringCharRule) := by
  have hhex : Extends p (recognizer toInt (.concat [lit 'u', .exactly 4 hex_digit])) := by
    rw [recognizer_pair]
    exact (extends_class rfl).seq (Extends.power (extends_class rfl) (hungry_class rfl) 3)
      (hungry_class (g := hex_digit) rfl).seq
  have hescape : Extends p (recognizer toInt escapeRule) := by
    simp only [escapeRule, recognizer_either, recognizer_choice]
    iterate 8 refine Extends.alt (extends_class rfl) ?_
    exact hhex
  have hungry : Hungry (recognizer toInt escapeRule) := by
    simp only [escapeRule, recognizer_either]
    exact (hungry_class rfl).alt
  rw [stringCharRule, recognizer_choice, recognizer_pair]
  exact (extends_class rfl).alt ((extends_class rfl).seq hescape hungry)

theorem hungry_stringChar : Hungry (recognizer toInt stringCharRule) := by
  rw [stringCharRule, recognizer_choice]
  exact (hungry_class rfl).alt

theorem extends_string : Extends (space toInt) (recognizer toInt Grammar.String) := by
  rw [recognizer_string]
  exact extends_enclose (extends_stringChar.star hungry_stringChar) hungry_stringChar.star

theorem hungry_string : Hungry (recognizer toInt Grammar.String) := by
  rw [recognizer_string]
  exact hungry_enclose

theorem extends_digits : Extends p (recognizer toInt (.atLeast 1 digit)) := by
  rw [recognizer_atLeast_one]
  exact (extends_class rfl).seq ((extends_class rfl).star (hungry_class rfl))
    (hungry_class rfl).star

theorem hungry_digits : Hungry (recognizer toInt (.atLeast 1 digit)) := by
  rw [recognizer_atLeast_one]
  exact (hungry_class rfl).seq

theorem extends_int : Extends p (recognizer toInt intRule) := by
  rw [intRule, recognizer_choice, recognizer_pair, recognizer_repeat]
  exact (extends_class rfl).alt ((extends_class rfl).seq
    ((extends_class rfl).star (hungry_class rfl))
    (hungry_class rfl).star)

theorem hungry_int : Hungry (recognizer toInt intRule) := by
  rw [intRule, recognizer_choice]
  exact (hungry_class rfl).alt

theorem extends_fraction : Extends p (recognizer toInt fractionRule) := by
  rw [fractionRule, recognizer_pair]
  exact (extends_class rfl).seq extends_digits hungry_digits

theorem hungry_fraction : Hungry (recognizer toInt fractionRule) := by
  rw [fractionRule, recognizer_pair]
  exact (hungry_class rfl).seq

theorem extends_exponent : Extends p (recognizer toInt exponentRule) := by
  rw [exponentRule, recognizer_concat, recognizer_pair]
  exact (extends_class rfl).seq ((Extends.opt (extends_class rfl)).seq extends_digits hungry_digits)
    (hungry_class (g := .either [lit '+', lit '-']) rfl).alt.seq

theorem hungry_exponent : Hungry (recognizer toInt exponentRule) := by
  rw [exponentRule, recognizer_concat]
  exact (hungry_class rfl).seq

theorem extends_number : Extends (space toInt) (recognizer toInt Number) := by
  rw [recognizer_number]
  have hungry : Hungry (recognizer toInt (.opt fractionRule)) := hungry_fraction.alt
  have hungry' : Hungry (recognizer toInt (.opt exponentRule)) := hungry_exponent.alt
  exact extends_trim ((Extends.opt (extends_class rfl)).seq (extends_int.seq
    (extends_fraction.opt.seq extends_exponent.opt hungry') hungry.seq) hungry_int.seq)
    (hungry_class (g := lit '-') rfl).alt.seq

theorem extends_boolean : Extends (space toInt) (recognizer toInt Grammar.Boolean) := by
  rw [recognizer_boolean]
  exact extends_trim ((Extends.text toInt _).alt (.text toInt _)) rfl

theorem extends_null : Extends p (recognizer toInt Null) := .text toInt _

/-! ### Values -/

theorem extends_property {v : Recognizer κ} (hv : Extends (space toInt) v) (hungry : Hungry v) :
    Extends (space toInt) (property toInt v) :=
  (extends_trim extends_string hungry_string).seq
    ((extends_char ':').seq (extends_trim hv hungry) (hungry_trim hungry)) (hungry_char ':').seq

theorem hungry_property {v : Recognizer κ} : Hungry (property toInt v) :=
  (hungry_trim hungry_string).seq

theorem extends_object {v : Recognizer κ} (hv : Extends (space toInt) v) (hungry : Hungry v) :
    Extends (space toInt) (object toInt v) :=
  extends_enclose (extends_inter (extends_property hv hungry) hungry_property)
    (hungry_inter hungry_property)

theorem extends_array {v : Recognizer κ} (hv : Extends (space toInt) v) (hungry : Hungry v) :
    Extends (space toInt) (array toInt v) :=
  extends_enclose (extends_inter (extends_trim hv hungry) (hungry_trim hungry))
    (hungry_inter (hungry_trim hungry))

theorem extends_valueOf {v : Recognizer κ} (hv : Extends (space toInt) v) (hungry : Hungry v) :
    Extends (space toInt) (valueOf toInt v) :=
  extends_string.alt (extends_number.alt ((extends_object hv hungry).alt
    ((extends_array hv hungry).alt (extends_boolean.alt extends_null))))

theorem hungry_valueOf {v : Recognizer κ} : Hungry (valueOf toInt v) := hungry_string.alt

theorem hungry_unfolded (n : ℕ) : Hungry (Recognizer.unfolded (valueOf toInt) n) := by
  cases n with
  | zero => rfl
  | succ n => exact hungry_valueOf

theorem extends_unfolded (n : ℕ) :
    Extends (space toInt) (Recognizer.unfolded (valueOf toInt) n) := by
  induction n with
  | zero => exact .pending
  | succ n ih => exact extends_valueOf ih (hungry_unfolded n)

/-- **The answer about a value is final**, up to white space at the end. -/
theorem extends_value : Extends (space toInt) (value toInt) :=
  .fix (guardedBy_valueOf toInt) extends_unfolded

end Hittop.Json
