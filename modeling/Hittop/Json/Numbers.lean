/-
**A number is the longest numeral at its beginning.**

Three parts of a number are optional, and its digits are read as far as they go.  An optional part
that fails is left out as a whole; one that the input ends in asks for more, because it may still
come to be.  What is accepted is therefore the longest numeral there is, once no more input can make
it longer.

Main definitions:

* `Hittop.Json.Longest` — no longer numeral is there, nor will be.

Main results:

* `Hittop.Json.numeral_ensures` — what is accepted is a numeral;
* `Hittop.Json.Longest.reads`, `Hittop.Json.numeral_incomplete` — the longest numeral is read, and
  the beginning of a numeral is not enough;
* `Hittop.number_longest_iff` — what `Number` accepts, with the white space around it.
-/

import Mathlib.Data.Nat.Find
import Hittop.Json.Acceptance
import Hittop.Json.Range
import Hittop.Json.Streaming
import Hittop.Library.Accepted

set_option relaxedAutoImplicit false
set_option autoImplicit false

namespace Hittop.Json

open Grammar
open Recognizer (Ensures Promises Reads)
open Uri.Grammar (lit)

variable {x r y s : List Byte} {c : Byte} {k : ℕ}

/-! ### Digits -/

/-- One more digit. -/
def Digits.snoc (d : Digits) (c : Digit) : Digits := ⟨d.first, d.rest ++ [c]⟩

theorem Digits.snoc_text (d : Digits) (c : Digit) : (d.snoc c).text = d.text ++ [c.val] := by
  simp [Digits.text, Digits.snoc]

theorem exists_digit (h : has digit (octet c) = true) : ∃ d : Digit, d.val = c := by
  have hvalue := Cctype.isdigit_iff.1 h
  have hlow : (chr '0').toNat = 48 := rfl
  have hhigh : (chr '9').toNat = 57 := rfl
  unfold octet at hvalue
  exact ⟨⟨c, by omega⟩, rfl⟩

/-- The text of a fraction, or none. -/
def fractionText : Option Digits → List Byte
  | none => []
  | some d => chr '.' :: d.text

/-- The text of an exponent, or none. -/
def exponentText : Option Exponent → List Byte
  | none => []
  | some e => e.text

theorem Numeral.text_eq (minus : Bool) (int : IntDigits) (fraction : Option Digits)
    (exponent : Option Exponent) : (Numeral.mk minus int fraction exponent).text =
      (if minus then [chr '-'] else []) ++
        (int.text ++ (fractionText fraction ++ exponentText exponent)) := by
  cases fraction <;> cases exponent <;> rfl

/-! ### What the parts accept -/

theorem digit_ensures :
    Ensures (recognizer octet digit) fun x => ∃ d : Digit, x = [d.val] := by
  rw [recognizer_class (g := digit) rfl]
  refine Ensures.satisfy fun c hc => ?_
  obtain ⟨d, rfl⟩ := exists_digit hc
  exact ⟨d, rfl⟩

theorem repeat_digit_ensures :
    Ensures (.star (recognizer octet digit))
      fun x => ∃ ds : List Digit, x = ds.map Subtype.val := by
  refine digit_ensures.star_of ⟨[], rfl⟩ ?_
  rintro _ _ ⟨d, rfl⟩ ⟨ds, rfl⟩
  exact ⟨d :: ds, rfl⟩

theorem digits_ensures :
    Ensures (recognizer octet (.atLeast 1 digit)) fun x => ∃ d : Digits, x = d.text := by
  rw [recognizer_atLeast_one]
  refine digit_ensures.seq_of repeat_digit_ensures ?_
  rintro _ _ ⟨d, rfl⟩ ⟨ds, rfl⟩
  exact ⟨⟨d, ds⟩, rfl⟩

theorem sign_ensures : Ensures (recognizer octet (.opt (lit '-')))
    fun x => ∃ minus : Bool, x = if minus then [chr '-'] else [] := by
  rw [recognizer_opt]
  refine Ensures.opt ((lit_ensures '-' (chr '-') rfl).mono ?_) ⟨false, rfl⟩
  rintro _ rfl
  exact ⟨true, rfl⟩

theorem int_ensures : Ensures (recognizer octet intRule) fun x => ∃ i : IntDigits, x = i.text := by
  rw [intRule, recognizer_choice, recognizer_pair, recognizer_repeat]
  refine Ensures.alt ((lit_ensures '0' (chr '0') rfl).mono ?_) ?_
  · rintro _ rfl
    exact ⟨.zero, rfl⟩
  · have hfirst : Ensures (recognizer octet digit_1_9) fun x => ∃ d : OneNine, x = [d.val] := by
      rw [recognizer_class (g := digit_1_9) rfl]
      refine Ensures.satisfy fun c hc => ?_
      have hc' : (!decide (ch '0' = octet c) && Cctype.isdigit.test (octet c)) = true := by
        simpa [has, digit_1_9, digit, Rule.test] using hc
      simp only [Bool.and_eq_true, Bool.not_eq_true', decide_eq_false_iff_not] at hc'
      obtain ⟨hne, hdigit⟩ := hc'
      have hvalue := Cctype.isdigit_iff.1 hdigit
      have hzero : ch '0' = 48 := rfl
      have hlow : (chr '1').toNat = 49 := rfl
      have hhigh : (chr '9').toNat = 57 := rfl
      unfold octet at hvalue hne
      exact ⟨⟨c, by omega⟩, rfl⟩
    refine hfirst.seq_of repeat_digit_ensures ?_
    rintro _ _ ⟨d, rfl⟩ ⟨ds, rfl⟩
    exact ⟨.digits d ds, rfl⟩

theorem fraction_ensures : Ensures (recognizer octet fractionRule)
    fun x => ∃ d : Digits, x = chr '.' :: d.text := by
  rw [fractionRule, recognizer_pair]
  refine (lit_ensures '.' (chr '.') rfl).seq_of digits_ensures ?_
  rintro _ _ rfl ⟨d, rfl⟩
  exact ⟨d, rfl⟩

/-- The mark of an exponent. -/
theorem mark_ensures : Ensures (recognizer octet (.either [lit 'e', lit 'E']))
    fun x => ∃ capital : Bool, x = [if capital then chr 'E' else chr 'e'] := by
  rw [recognizer_choice]
  refine Ensures.alt ((lit_ensures 'e' (chr 'e') rfl).mono ?_)
    ((lit_ensures 'E' (chr 'E') rfl).mono ?_)
  · rintro _ rfl
    exact ⟨false, rfl⟩
  · rintro _ rfl
    exact ⟨true, rfl⟩

/-- A sign and digits, as an exponent has them behind its mark. -/
def Scale (x : List Byte) : Prop :=
  ∃ (sign : Option Bool) (d : Digits), ∀ capital : Bool,
    [if capital then chr 'E' else chr 'e'] ++ x = (Exponent.mk capital sign d).text

theorem Scale.of_sign {y : List Byte} (d : Digits) (hx : x = [] ∨ x = [chr '+'] ∨ x = [chr '-'])
    (hy : y = d.text) : Scale (x ++ y) := by
  rcases hx with rfl | rfl | rfl
  · exact ⟨none, d, fun _ => by rw [hy]; rfl⟩
  · exact ⟨some true, d, fun _ => by rw [hy]; rfl⟩
  · exact ⟨some false, d, fun _ => by rw [hy]; rfl⟩

/-- The sign of an exponent, or none. -/
theorem exponentSign_ensures : Ensures (recognizer octet (.opt (.either [lit '+', lit '-'])))
    fun x => x = [] ∨ x = [chr '+'] ∨ x = [chr '-'] := by
  rw [recognizer_opt, recognizer_choice]
  exact Ensures.opt (((lit_ensures '+' (chr '+') rfl).mono fun _ h => .inr (.inl h)).alt
    ((lit_ensures '-' (chr '-') rfl).mono fun _ h => .inr (.inr h))) (.inl rfl)

theorem scale_ensures : Ensures ((recognizer octet (.opt (.either [lit '+', lit '-']))).seq
    (recognizer octet (.atLeast 1 digit))) Scale := by
  refine exponentSign_ensures.seq_of digits_ensures ?_
  rintro _ _ hx ⟨d, hy⟩
  exact .of_sign d hx hy

theorem exponent_ensures :
    Ensures (recognizer octet exponentRule) fun x => ∃ e : Exponent, x = e.text := by
  rw [exponentRule, recognizer_concat, recognizer_pair]
  refine mark_ensures.seq_of scale_ensures ?_
  rintro _ _ ⟨capital, rfl⟩ ⟨sign, d, hd⟩
  exact ⟨_, hd capital⟩

/-- **What is accepted is a numeral.** -/
theorem numeral_ensures : Ensures numeral fun x => ∃ n : Numeral, x = n.text := by
  have hfraction : Ensures (recognizer octet (.opt fractionRule))
      fun x => ∃ d : Option Digits, x = fractionText d := by
    rw [recognizer_opt]
    refine Ensures.opt (fraction_ensures.mono ?_) ⟨none, rfl⟩
    rintro _ ⟨d, rfl⟩
    exact ⟨some d, rfl⟩
  have hexponent : Ensures (recognizer octet (.opt exponentRule))
      fun x => ∃ e : Option Exponent, x = exponentText e := by
    rw [recognizer_opt]
    refine Ensures.opt (exponent_ensures.mono ?_) ⟨none, rfl⟩
    rintro _ ⟨e, rfl⟩
    exact ⟨some e, rfl⟩
  refine sign_ensures.seq_of (int_ensures.seq_of (hfraction.seq_of hexponent
    (R := fun x => ∃ d e, x = fractionText d ++ exponentText e) ?_)
    (R := fun x => ∃ i d e, x = IntDigits.text i ++ (fractionText d ++ exponentText e)) ?_) ?_
  · rintro _ _ ⟨d, rfl⟩ ⟨e, rfl⟩
    exact ⟨d, e, rfl⟩
  · rintro _ _ ⟨i, rfl⟩ ⟨d, e, rfl⟩
    exact ⟨i, d, e, rfl⟩
  · rintro _ _ ⟨minus, rfl⟩ ⟨i, d, e, rfl⟩
    exact ⟨⟨minus, i, d, e⟩, (Numeral.text_eq minus i d e).symm⟩

/-! ### What the parts ask for -/

theorem digit_promises :
    Promises (recognizer octet digit) fun x => ∃ d : Digit, x = [d.val] := by
  rw [recognizer_class (g := digit) rfl]
  exact Promises.satisfy ⟨⟨chr '0', by decide⟩, rfl⟩

theorem digits_promises :
    Promises (recognizer octet (.atLeast 1 digit)) fun x => ∃ d : Digits, x = d.text := by
  rw [recognizer_atLeast_one]
  have hrest : Promises (.star (recognizer octet digit))
      fun x => ∃ ds : List Digit, x = ds.map Subtype.val := by
    refine digit_promises.star_of digit_ensures ⟨[], rfl⟩ ?_
    rintro _ _ ⟨d, rfl⟩ ⟨ds, rfl⟩
    exact ⟨d :: ds, rfl⟩
  refine digit_promises.seq_of digit_ensures hrest (y := []) ⟨[], rfl⟩ ?_
  rintro _ _ ⟨d, rfl⟩ ⟨ds, rfl⟩
  exact ⟨⟨d, ds⟩, rfl⟩

/-- Some digits. -/
def someDigits : Digits := ⟨⟨chr '0', by decide⟩, []⟩

theorem lit_promises (a : Char) (b : Byte) :
    Promises (recognizer octet (lit a)) fun x => x = [b] := by
  rw [recognizer_lit]
  exact Promises.satisfy rfl

theorem fraction_promises : Promises (recognizer octet fractionRule)
    fun x => ∃ d : Digits, x = chr '.' :: d.text := by
  rw [fractionRule, recognizer_pair]
  refine (lit_promises '.' (chr '.')).seq_of (lit_ensures '.' (chr '.') rfl) digits_promises
    (y := someDigits.text) ⟨someDigits, rfl⟩ ?_
  rintro _ _ rfl ⟨d, rfl⟩
  exact ⟨d, rfl⟩

theorem scale_promises : Promises ((recognizer octet (.opt (.either [lit '+', lit '-']))).seq
    (recognizer octet (.atLeast 1 digit))) Scale := by
  have hsign : Promises (recognizer octet (.opt (.either [lit '+', lit '-'])))
      fun x => x = [] ∨ x = [chr '+'] ∨ x = [chr '-'] := by
    rw [recognizer_opt, recognizer_class (g := .either [lit '+', lit '-']) rfl]
    exact Promises.opt (.satisfy (.inl rfl))
  refine hsign.seq_of exponentSign_ensures digits_promises (y := someDigits.text)
    ⟨someDigits, rfl⟩ ?_
  rintro _ _ hx ⟨d, hy⟩
  exact .of_sign d hx hy

theorem exponent_promises :
    Promises (recognizer octet exponentRule) fun x => ∃ e : Exponent, x = e.text := by
  have hmark : Promises (recognizer octet (.either [lit 'e', lit 'E']))
      fun x => ∃ capital : Bool, x = [if capital then chr 'E' else chr 'e'] := by
    rw [recognizer_class (g := .either [lit 'e', lit 'E']) rfl]
    exact Promises.satisfy ⟨true, rfl⟩
  rw [exponentRule, recognizer_concat, recognizer_pair]
  refine hmark.seq_of mark_ensures scale_promises (y := [] ++ someDigits.text)
    (.of_sign someDigits (.inl rfl) rfl) ?_
  rintro _ _ ⟨capital, rfl⟩ ⟨sign, d, hd⟩
  exact ⟨_, hd capital⟩

/-! ### The longest numeral -/

/-- `n` is all of the numeral that the text begins with: no longer one is there, and none will be
when there is more text. -/
structure Longest (n : Numeral) (r : List Byte) : Prop where
  longest : ∀ m : Numeral, m.text <+: n.text ++ r → m.text.length ≤ n.text.length
  decided : ∀ m : Numeral, ¬ n.text ++ r <+: m.text

section Longest

variable {n : Numeral} {f : Recognizer Byte} {P : List Byte → Prop}

/-- What would make the numeral longer is rejected behind it. -/
theorem Longest.reject (h : Longest n r) (hf : Ensures f P) (hf' : Promises f P)
    (hP : ∀ x, P x → x ≠ [] ∧ ∃ m : Numeral, m.text = n.text ++ x) : f r = .reject := by
  cases hfr : f r with
  | reject => rfl
  | accept k =>
      obtain ⟨hne, m, hm⟩ := hP _ (hf r k hfr)
      have hprefix : m.text <+: n.text ++ r := by
        rw [hm, List.prefix_append_right_inj]
        exact List.take_prefix k r
      have hle := h.longest m hprefix
      have hpos := List.length_pos_iff.2 hne
      rw [hm, List.length_append] at hle
      omega
  | incomplete =>
      obtain ⟨x, hx, hprefix⟩ := hf' r hfr
      obtain ⟨-, m, hm⟩ := hP x hx
      refine absurd ?_ (h.decided m)
      rw [hm, List.prefix_append_right_inj]
      exact hprefix

theorem begins_of_reject (h : recognizer octet digit y = .reject) :
    ∃ cs, Begins cs y ∧ ∀ b ∈ cs, first digit (octet b) = false := by
  rw [recognizer_class (g := digit) rfl] at h
  cases y with
  | nil => cases h
  | cons c y =>
      refine ⟨[c], ⟨c, List.mem_singleton_self c, y, rfl⟩, fun b hb => ?_⟩
      obtain rfl := List.mem_singleton.1 hb
      rw [Recognizer.satisfy_cons] at h
      split_ifs at h with hdigit
      exact Bool.eq_false_iff.2 hdigit

theorem Exponent.begins (e : Exponent) : Begins (bytes "eE") (e.text ++ y) :=
  ⟨_, by cases e.capital <;> decide, _, rfl⟩

/-- **The longest numeral is read.** -/
theorem Longest.reads (h : Longest n r) : Reads numeral n.text r := by
  obtain ⟨minus, int, fraction, exponent⟩ := n
  rw [Numeral.text_eq]
  -- the last digits of the numeral are not followed by one more
  have hdigit (hmore : ∀ c : Digit, ∃ m : Numeral,
      m.text = (Numeral.mk minus int fraction exponent).text ++ [c.val]) :
      recognizer octet digit r = .reject := by
    refine h.reject digit_ensures digit_promises ?_
    rintro _ ⟨c, rfl⟩
    exact ⟨by simp, hmore c⟩
  have hexponent : Reads (recognizer octet (.opt exponentRule)) (exponentText exponent) r := by
    cases exponent with
    | none =>
        refine Reads.opt_nil (h.reject exponent_ensures exponent_promises ?_)
        rintro _ ⟨e, rfl⟩
        refine ⟨by simp [Exponent.text], ⟨minus, int, fraction, some e⟩, ?_⟩
        simp [Numeral.text_eq, exponentText]
    | some e =>
        obtain ⟨cs, hbegins, hcs⟩ := begins_of_reject (hdigit fun c =>
          ⟨⟨minus, int, fraction, some ⟨e.capital, e.sign, e.digits.snoc c⟩⟩, by
            simp [Numeral.text_eq, exponentText, Exponent.text, Digits.snoc_text]⟩)
        exact Reads.opt (reads_exponentText e hbegins hcs)
  have hfraction : Reads (recognizer octet (.opt fractionRule)) (fractionText fraction)
      (exponentText exponent ++ r) := by
    cases fraction with
    | none =>
        refine Reads.opt_nil ?_
        cases exponent with
        | none =>
            refine h.reject fraction_ensures fraction_promises ?_
            rintro _ ⟨d, rfl⟩
            refine ⟨by simp, ⟨minus, int, some d, none⟩, ?_⟩
            simp [Numeral.text_eq, fractionText, exponentText]
        | some e => exact e.begins.reject (of_all (by decide))
    | some d =>
        refine Reads.opt ?_
        cases exponent with
        | none =>
            obtain ⟨cs, hbegins, hcs⟩ := begins_of_reject (hdigit fun c =>
              ⟨⟨minus, int, some (d.snoc c), none⟩, by
                simp [Numeral.text_eq, fractionText, exponentText, Digits.snoc_text]⟩)
            exact reads_fractionText d hbegins hcs
        | some e => exact reads_fractionText d e.begins (of_all (by decide))
  have hint : Reads (recognizer octet intRule) int.text
      (fractionText fraction ++ exponentText exponent ++ r) := by
    rw [List.append_assoc]
    cases int with
    | zero =>
        rw [intRule, recognizer_choice]
        exact (reads_class (c := chr '0') rfl (by decide)).alt_left
    | digits first rest =>
        cases fraction with
        | none =>
            cases exponent with
            | none =>
                obtain ⟨cs, hbegins, hcs⟩ := begins_of_reject (hdigit fun c =>
                  ⟨⟨minus, .digits first (rest ++ [c]), none, none⟩, by
                    simp [Numeral.text_eq, fractionText, exponentText, IntDigits.text]⟩)
                exact reads_int (.digits first rest) hbegins hcs
            | some e => exact reads_int (.digits first rest) e.begins (of_all (by decide))
        | some d =>
            have hbegins : Begins [chr '.']
                (fractionText (some d) ++ (exponentText exponent ++ r)) :=
              ⟨chr '.', List.mem_singleton_self _, _, rfl⟩
            exact reads_int (.digits first rest) hbegins (of_all (by decide))
  exact (reads_sign minus (by rw [List.append_assoc]; exact int.begins)).seq
    (hint.seq (hfraction.seq hexponent))

end Longest

/-! ### Beginnings of numerals -/

/-- Every numeral is the beginning of a longer one. -/
theorem Numeral.exists_longer (n : Numeral) : ∃ m : Numeral, ∃ x ≠ [], m.text = n.text ++ x := by
  have zero : Digit := ⟨chr '0', by decide⟩
  obtain ⟨minus, int, fraction, exponent⟩ := n
  cases exponent with
  | some e =>
      refine ⟨⟨minus, int, fraction, some ⟨e.capital, e.sign, e.digits.snoc zero⟩⟩, [zero.val],
        by simp, ?_⟩
      simp [Numeral.text_eq, exponentText, Exponent.text, Digits.snoc_text]
  | none =>
      cases fraction with
      | some d =>
          refine ⟨⟨minus, int, some (d.snoc zero), none⟩, [zero.val], by simp, ?_⟩
          simp [Numeral.text_eq, fractionText, exponentText, Digits.snoc_text]
      | none =>
          refine ⟨⟨minus, int, some ⟨zero, []⟩, none⟩, chr '.' :: [zero.val], by simp, ?_⟩
          simp [Numeral.text_eq, fractionText, exponentText, Digits.text]

/-- The answer about a numeral is final. -/
theorem extends_numeral {p : Byte → Bool} : Recognizer.Extends p numeral :=
  (Recognizer.Extends.opt (extends_class rfl)).seq (extends_int.seq
    (extends_fraction.opt.seq extends_exponent.opt hungry_exponent.alt) hungry_fraction.alt.seq)
    hungry_int.seq

/-- **The beginning of a numeral is not enough**, a whole one included. -/
theorem numeral_incomplete {n : Numeral} (h : s <+: n.text) : numeral s = .incomplete := by
  obtain ⟨m, x, hx, hm⟩ := n.exists_longer
  have hread : numeral (m.text ++ [chr ' ']) = .accept m.text.length :=
    reads_numeral m ⟨chr ' ', by decide, [], rfl⟩
  obtain ⟨t, ht⟩ : s <+: m.text ++ [chr ' '] := by
    rw [hm, List.append_assoc]
    exact h.trans (List.prefix_append _ _)
  have hfinal := extends_numeral (p := fun _ => false)
  cases hs : numeral s with
  | incomplete => rfl
  | reject =>
      have hreject := hfinal.rejected s t hs
      rw [ht, hread] at hreject
      cases hreject
  | accept k =>
      have hk := Recognizer.le_length hs
      have hle := h.length_le
      have hpos := List.length_pos_iff.2 hx
      obtain ⟨j, hj, -, hmore⟩ := hfinal.accepted s t k hs
      have hnone : t.take j = [] := by
        refine List.eq_nil_iff_forall_not_mem.2 fun a ha => ?_
        cases hmore a ha
      have hlength : (t.take j).length = 0 := by rw [hnone]; rfl
      have htotal := Recognizer.le_length hj
      rw [ht, hread, Verdict.accept.injEq, hm, List.length_append] at hj
      rw [List.length_take] at hlength
      rw [List.length_append] at htotal
      omega

/-- The longest numeral that a text begins with. -/
theorem exists_longest_prefix {n : Numeral} (h : n.text <+: s) : ∃ m : Numeral, m.text <+: s ∧
    ∀ m' : Numeral, m'.text <+: s → m'.text.length ≤ m.text.length := by
  classical
  let P : ℕ → Prop := fun l => ∃ m : Numeral, m.text <+: s ∧ m.text.length = l
  obtain ⟨m, hm, hlength⟩ : P (Nat.findGreatest P s.length) :=
    Nat.findGreatest_spec h.length_le ⟨n, h, rfl⟩
  refine ⟨m, hm, fun m' hm' => ?_⟩
  rw [hlength]
  exact Nat.le_findGreatest hm'.length_le ⟨m', hm', rfl⟩

/-- **What is accepted is the longest numeral.** -/
theorem numeral_eq_accept : numeral s = .accept k ↔
    ∃ (n : Numeral) (r : List Byte), s = n.text ++ r ∧ Longest n r ∧ k = n.text.length := by
  constructor
  · intro h
    obtain ⟨n₀, hn₀⟩ := numeral_ensures s k h
    have hprefix : n₀.text <+: s := hn₀ ▸ List.take_prefix k s
    obtain ⟨n, ⟨r, rfl⟩, hlongest⟩ := exists_longest_prefix hprefix
    have hr : Longest n r := by
      refine ⟨hlongest, fun m hm => ?_⟩
      rw [numeral_incomplete hm] at h
      cases h
    refine ⟨n, r, rfl, hr, ?_⟩
    have hread : numeral (n.text ++ r) = .accept n.text.length := hr.reads
    rw [h] at hread
    exact Verdict.accept.inj hread
  · rintro ⟨n, r, rfl, hr, rfl⟩
    exact hr.reads

theorem trim_eq_accept {f : Recognizer Byte} : trim octet f s = .accept k ↔
    ∃ j, f (s.dropWhile (space octet)) = .accept j ∧ k = (s.takeWhile (space octet)).length +
      (j + (((s.dropWhile (space octet)).drop j).takeWhile (space octet)).length) := by
  rw [trim, Recognizer.seq_eq_accept]
  constructor
  · rintro ⟨a, b, ha, hb, rfl⟩
    obtain rfl := spaces_eq_accept.1 ha
    rw [drop_spaces] at hb
    obtain ⟨j, l, hj, hl, rfl⟩ := Recognizer.seq_eq_accept.1 hb
    rw [spaces_eq_accept.1 hl]
    exact ⟨j, hj, rfl⟩
  · rintro ⟨j, hj, rfl⟩
    refine ⟨_, _, spaces_eq_accept.2 rfl, ?_, rfl⟩
    rw [drop_spaces]
    exact Recognizer.seq_eq_accept.2 ⟨_, _, hj, spaces_eq_accept.2 rfl, rfl⟩

theorem number_accept_iff : recognizer octet Number s = .accept k ↔
    ∃ (n : Numeral) (w r : List Byte), s = w ++ (n.text ++ r) ∧
      w = s.takeWhile (space octet) ∧ Longest n r ∧
        k = w.length + n.text.length + (r.takeWhile (space octet)).length := by
  rw [number_eq, trim_eq_accept]
  constructor
  · rintro ⟨j, hj, rfl⟩
    obtain ⟨n, r, hs, hr, rfl⟩ := numeral_eq_accept.1 hj
    refine ⟨n, s.takeWhile (space octet), r, ?_, rfl, hr, ?_⟩
    · rw [← hs, List.takeWhile_append_dropWhile]
    · rw [hs, List.drop_left, Nat.add_assoc]
  · rintro ⟨n, w, r, hs, hw, hr, rfl⟩
    have hdrop : s.dropWhile (space octet) = n.text ++ r := by
      have hsplit : w ++ s.dropWhile (space octet) = w ++ (n.text ++ r) := by
        rw [← hs, hw, List.takeWhile_append_dropWhile]
      exact List.append_cancel_left hsplit
    refine ⟨n.text.length, hdrop ▸ hr.reads, ?_⟩
    rw [hdrop, List.drop_left, ← hw, Nat.add_assoc]

theorem Numeral.text_ne_nil (n : Numeral) : n.text ≠ [] := by
  obtain ⟨c, -, t, ht⟩ := n.begins (y := [])
  rw [List.append_nil] at ht
  rw [ht]
  exact List.cons_ne_nil c t

/-- Something follows the longest numeral that is known to be it. -/
theorem longest_iff {n : Numeral} : Longest n r ↔
    (∀ m : Numeral, m.text <+: n.text ++ r → m.text.length ≤ n.text.length) ∧ r ≠ [] ∧
      ¬ ∃ m : Numeral, n.text.length < m.text.length ∧ n.text ++ r <+: m.text := by
  constructor
  · intro h
    refine ⟨h.longest, ?_, fun ⟨m, _, hm⟩ => h.decided m hm⟩
    rintro rfl
    refine h.decided n ?_
    rw [List.append_nil]
  · rintro ⟨hlongest, hne, hmore⟩
    refine ⟨hlongest, fun m hm => hmore ⟨m, ?_, hm⟩⟩
    have hle := hm.length_le
    have hpos := List.length_pos_iff.2 hne
    rw [List.length_append] at hle
    omega

end Hittop.Json

namespace Hittop

open Json (Numeral space) in
/-- **A number is the longest numeral** behind the white space: there is one, something follows it,
and it is not the beginning of a longer one together with all that follows.  It is consumed with the
white space on both sides. -/
theorem number_longest_iff (s : List Byte) (k : ℕ) :
    Parses octets Json.Grammar.Number s (.success k) ↔
      ∃ (n : Numeral) (w r : List Byte), s = w ++ (n.text ++ r) ∧
        w = s.takeWhile (space octet) ∧
        (∀ m : Numeral, m.text <+: n.text ++ r → m.text.length ≤ n.text.length) ∧
        n.text ≠ [] ∧ r ≠ [] ∧
        (¬ ∃ m : Numeral, n.text.length < m.text.length ∧ n.text ++ r <+: m.text) ∧
        k = w.length + n.text.length + (r.takeWhile (space octet)).length := by
  refine (parses_success_iff (exists_parses (n := 32) octet_inLookup s
    (Json.regular_of (by decide)) rfl)).trans (Json.number_accept_iff.trans ?_)
  constructor
  · rintro ⟨n, w, r, hs, hw, hr, hk⟩
    obtain ⟨hlongest, hne, hmore⟩ := Json.longest_iff.1 hr
    exact ⟨n, w, r, hs, hw, hlongest, n.text_ne_nil, hne, hmore, hk⟩
  · rintro ⟨n, w, r, hs, hw, hlongest, -, hne, hmore, hk⟩
    exact ⟨n, w, r, hs, hw, Json.longest_iff.2 ⟨hlongest, hne, hmore⟩, hk⟩

end Hittop
