/-
**What a failed parse leaves behind.**

Arrays, objects, numbers and names assign to the value behind `output_` when they have been
accepted.  The visitor for the contents of a string does so before the closing quotation mark has
been looked for, so that a string that is not closed is assigned although the parse fails.  That is
the only trace a failed parse leaves.

Main definitions:

* `Hittop.Json.Unclosed` — a text that is a string as far as its contents go.

Main results:

* `Hittop.json_failure_unchanged_iff` — when a failed parse leaves the value behind `output_` alone.
-/

import Hittop.Json.Acting
import Hittop.Json.Taking
import Hittop.Json.Unescaping
import Hittop.Uri.Visitor

set_option relaxedAutoImplicit false
set_option autoImplicit false

namespace Hittop

namespace Json

open Exec Grammar Meaning

variable {δ : Type} {stod : List Byte → Except Fault δ} {w s t : List Byte} {n : ℕ} {v : Verdict}
  {st st' : JsonParse δ}

/-- A quotation mark, with nothing but white space in front of it, and the contents of a string,
behind which there is no quotation mark. -/
def Unclosed (s : List Byte) : Prop :=
  ∃ w t n, s = w ++ chr '"' :: t ∧ (∀ c ∈ w, space octet c = true) ∧
    Parses octets StringContents t (.success n) ∧ (t.drop n).head? ≠ some (chr '"')

/-! ### Strings -/

theorem lift_spaces (s : List Byte) (st : JsonParse δ) : lift (reading octet).spaces s st =
    .ok (.accept (s.takeWhile (space octet)).length, st) := by
  rw [lift_apply, spaces_eq, Recognizer.stretch_apply]

theorem char_cases {x : Char} (hx : octet (chr x) = ch x)
    (h : Meaning.char octet x s st = .ok (v, st')) :
    st' = st ∧ ((v = .accept 1 ∧ ∃ t, s = chr x :: t) ∨
      (∀ n, v ≠ .accept n) ∧ s.head? ≠ some (chr x)) := by
  cases h
  refine ⟨rfl, ?_⟩
  by_cases hhead : s.head? = some (chr x)
  · obtain ⟨t, rfl⟩ := List.head?_eq_some_iff.1 hhead
    exact .inl ⟨(lit_eq_accept hx).2 ⟨rfl, t, rfl⟩, t, rfl⟩
  · refine .inr ⟨fun n hn => ?_, hhead⟩
    obtain ⟨-, t, rfl⟩ := (lit_eq_accept hx).1 hn
    exact hhead rfl

/-- A string that is not accepted has left something behind only if it is not closed. -/
theorem unclosed_of_changed {value : List Byte → Except Fault (JsonValue δ)}
    (h : ((assigned StringContents value).enclosed octet '"' '"') s st = .ok (v, st'))
    (hv : ∀ n, v ≠ .accept n) (hne : st' ≠ st) : Unclosed s := by
  rw [Meaning.enclosed, Meaning.trimmed, seq_of_accept (lift_spaces s st), bind_ok_iff] at h
  obtain ⟨u, st₁, hquoted, hend⟩ := h
  cases hend
  have hu : ∀ n, u ≠ .accept n := by
    rintro n rfl
    exact hv _ rfl
  rcases seq_cases hquoted with ⟨k, st₂, u', -, hspaces, rfl⟩ | ⟨hinside, -⟩
  · rw [lift_spaces] at hspaces
    cases hspaces
    exact absurd rfl (hu _)
  rcases seq_cases hinside with ⟨k, st₂, u', hopen, hrest, rfl⟩ | ⟨hopen, -⟩
  · obtain ⟨rfl, ⟨hk, t, ht⟩ | ⟨hno, -⟩⟩ := char_cases (by decide) hopen
    · obtain rfl : k = 1 := Verdict.accept.inj hk
      rw [ht, List.drop_one, List.tail_cons] at hrest
      rcases seq_cases hrest with ⟨n, st₃, u'', hcontents, hclose, rfl⟩ | ⟨hcontents, hno⟩
      · obtain ⟨rfl, ⟨hu'', -⟩ | ⟨-, hclosed⟩⟩ := char_cases (by decide) hclose
        · subst hu''
          exact absurd rfl (hu _)
        · refine ⟨s.takeWhile (space octet), t, n, ?_, fun c hc => List.mem_takeWhile_imp hc,
            parses_of_accept (judges_assigned.verdict hcontents).symm, hclosed⟩
          rw [← ht]
          exact (List.prefix_iff_eq_append.1 (List.takeWhile_prefix _)).symm
      · rcases assigned_cases hcontents with ⟨n, x, rfl, -⟩ | ⟨-, rfl⟩
        · exact absurd rfl (hno n)
        · exact absurd rfl hne
    · exact absurd rfl (hno k)
  · obtain ⟨rfl, -⟩ := char_cases (by decide) hopen
    exact absurd rfl hne

theorem char_fails {x : Char} (hx : octet (chr x) = ch x) (h : s.head? ≠ some (chr x))
    (st : JsonParse δ) :
    ∃ v, (∀ n, v ≠ .accept n) ∧ Meaning.char octet x s st = .ok (v, st) := by
  have hrun : Meaning.char octet x s st = .ok (recognizer octet (Uri.Grammar.lit x) s, st) := rfl
  obtain ⟨-, ⟨-, t, rfl⟩ | ⟨hv, -⟩⟩ := char_cases hx hrun
  · exact absurd rfl h
  · exact ⟨_, hv, rfl⟩

theorem seq_of_ne_accept {m m' : Meaning Byte (JsonParse δ)} (hv : ∀ n, v ≠ .accept n)
    (h : m s st = .ok (v, st')) : m.seq m' s st = .ok (v, st') := by
  cases v with
  | accept n => exact absurd rfl (hv n)
  | incomplete => exact seq_of_incomplete h
  | reject => exact seq_of_reject h

theorem advance_of_ne_accept (hv : ∀ n, v ≠ .accept n) (k : ℕ) : v.advance k = v := by
  cases v with
  | accept n => exact absurd rfl (hv n)
  | incomplete => rfl
  | reject => rfl

/-- The contents of a string that is not closed are assigned. -/
theorem string_unclosed (h : Unclosed s) : ∃ x, ∀ st : JsonParse δ, ∃ v, (∀ n, v ≠ .accept n) ∧
    ((assigned StringContents fun text => (unescapeUnsafe text).map .string).enclosed octet '"' '"')
      s st = .ok (v, { st with output := .string x }) := by
  obtain ⟨w, t, n, rfl, hw, hparses, hclosed⟩ := h
  obtain ⟨x, hx⟩ := ensures_unescapes t n (accept_of_parses hparses) [] ⟨[], rfl⟩
  rw [List.append_nil] at hx
  refine ⟨x, fun st => ?_⟩
  have hdense : Dense (chr '"' :: t) := dense_cons (by decide)
  have hcontents : Takes (assigned StringContents fun text => (unescapeUnsafe text).map .string)
      (t.take n) (t.drop n) st { st with output := .string x } :=
    takes_assigned (Recognizer.Reads.of_accept (accept_of_parses hparses)) (by rw [hx]; rfl)
  rw [Takes, List.take_append_drop] at hcontents
  obtain ⟨v, hv, hclose⟩ := char_fails (x := '"') (by decide) hclosed
    { st with output := JsonValue.string x }
  have hlength : (t.take n).length = n := by
    rw [List.length_take, Nat.min_eq_left (Recognizer.le_length (accept_of_parses hparses))]
  have hrest : ((assigned StringContents fun text => (unescapeUnsafe text).map .string).seq
      (Meaning.char octet '"')) t st = .ok (v, { st with output := .string x }) := by
    rw [← advance_of_ne_accept hv (t.take n).length]
    exact seq_ok hcontents (by rwa [hlength])
  have hopen : Takes (Meaning.char octet '"') [chr '"'] t st st := takes_char '"' (by decide)
  have hinside := seq_ok (q := (assigned StringContents fun text =>
    (unescapeUnsafe text).map .string).seq (Meaning.char octet '"')) hopen hrest
  rw [advance_of_ne_accept hv] at hinside
  refine ⟨v, hv, ?_⟩
  have hspaces : Takes (lift (reading octet).spaces) w (chr '"' :: t) st st :=
    takes_spaces hw hdense
  rw [← advance_of_ne_accept hv w.length]
  refine seq_ok hspaces ?_
  rw [List.drop_left]
  exact seq_of_ne_accept hv hinside

/-- What begins with a quotation mark is nothing but a string. -/
theorem refuses_besides_string {m : Meaning Byte (JsonParse δ)} {w t : List Byte}
    (hw : ∀ c ∈ w, space octet c = true) (st : JsonParse δ) :
    Refuses ((assigned Number fun text => (stod text).map .number).alt ((recordObject m).alt
      ((recordArray m).alt ((assigned Grammar.Boolean fun text =>
        .ok (.boolean (text.head?.map octet = some (ch 't')))).alt
          (assigned Null fun _ => .ok .null))))) (w ++ chr '"' :: t) st st := by
  have hspace : space octet (chr '"') = false := by decide
  refine Refuses.alt (refuses_number hw hspace (by decide) (by decide)) ?_
  refine Refuses.alt (refuses_recordObject hw hspace (by decide)) ?_
  refine Refuses.alt (refuses_recordArray hw hspace (by decide)) ?_
  refine Refuses.alt (refuses_assigned ?_) (refuses_assigned ?_)
  · have hboolean := boolean_reject (y := t) hspace (by decide) (by decide)
    rw [recognizer_boolean] at hboolean ⊢
    rw [trim_append hw, hboolean]
    rfl
  · cases w with
    | nil => exact null_reject (by decide)
    | cons c w =>
        refine null_reject fun hc => ?_
        have hspace := hw c List.mem_cons_self
        rw [space, hc] at hspace
        exact absurd hspace (by decide)

theorem run_unclosed (h : Unclosed s) : ∃ x, ∀ st : JsonParse δ, ∃ v, (∀ n, v ≠ .accept n) ∧
    visiting stod .value Grammar.Value s st = .ok (v, { st with output := .string x }) := by
  obtain ⟨x, hstring⟩ := string_unclosed (δ := δ) h
  obtain ⟨w, t, n, rfl, hw, -, -⟩ := h
  refine ⟨x, fun st => ?_⟩
  obtain ⟨v, hv, hstring⟩ := hstring st
  refine ⟨v, hv, ?_⟩
  rw [visiting_value_eq, recordValueOf]
  cases v with
  | accept n => exact absurd rfl (hv n)
  | incomplete => exact alt_of_incomplete hstring
  | reject => exact (alt_of_reject hstring).trans (refuses_besides_string hw _)

/-- **What has changed where a parse of `Value` fails** is due to a string that is not closed. -/
theorem unclosed_of_value (h : visiting stod .value Grammar.Value s st = .ok (v, st'))
    (hv : ∀ n, v ≠ .accept n) (hne : st' ≠ st) : Unclosed s := by
  by_contra hclosed
  have hstring {v : Verdict} {st₁ : JsonParse δ} (hrun : ((assigned StringContents fun text =>
      (unescapeUnsafe text).map .string).enclosed octet '"' '"') s st = .ok (v, st₁))
      (hv : ∀ n, v ≠ .accept n) : st₁ = st := by
    by_contra hchanged
    exact hclosed (unclosed_of_changed hrun hv hchanged)
  have hcommits {m : Meaning Byte (JsonParse δ)} (hm : Acts commits m) {v : Verdict}
      {st₁ st₂ : JsonParse δ} (hrun : m s st₁ = .ok (v, st₂)) (hv : ∀ n, v ≠ .accept n) :
      st₂ = st₁ := by
    obtain ⟨g, hg, hst, -⟩ := hm.of_run hrun
    rw [← hst, (commits.of_ne_accept hv).1 hg]
    rfl
  have hreject : ∀ n, Verdict.reject ≠ .accept n := by simp
  rw [visiting_value_eq, recordValueOf] at h
  rcases alt_cases h with ⟨hrun, -⟩ | ⟨st₁, hrun, hnumber⟩
  · exact hne (hstring hrun hv)
  obtain rfl := hstring hrun hreject
  rcases alt_cases hnumber with ⟨hrun, -⟩ | ⟨st₂, hrun, hobject⟩
  · exact hne (hcommits acts_assigned hrun hv)
  obtain rfl := hcommits acts_assigned hrun hreject
  rcases alt_cases hobject with ⟨hrun, -⟩ | ⟨st₃, hrun, harray⟩
  · exact hne (hcommits (acts_recordObject (acts_value stod) (judges_value stod)) hrun hv)
  obtain rfl := hcommits (acts_recordObject (acts_value stod) (judges_value stod)) hrun hreject
  rcases alt_cases harray with ⟨hrun, -⟩ | ⟨st₄, hrun, hboolean⟩
  · exact hne (hcommits (acts_recordArray (acts_value stod) (judges_value stod)) hrun hv)
  obtain rfl := hcommits (acts_recordArray (acts_value stod) (judges_value stod)) hrun hreject
  rcases alt_cases hboolean with ⟨hrun, -⟩ | ⟨st₅, hrun, hnull⟩
  · exact hne (hcommits acts_assigned hrun hv)
  obtain rfl := hcommits acts_assigned hrun hreject
  exact hne (hcommits acts_assigned hnull hv)

end Json

/-- A parse that does not succeed leaves the value behind `output_` as it was, whatever it was, if
and only if the text is not a string that is not closed. -/
theorem json_failure_unchanged_iff {δ : Type} (stod : List Byte → Except Fault δ) (s : List Byte) :
    (∀ (out : JsonValue δ) (r : ParseResult) (st' : JsonParse δ),
      Visits octets (jsonVisitors stod) .value Json.Grammar.Value s
        { JsonParse.init with output := out } r st' → r.ok = false → st'.output = out) ↔
      ¬ Json.Unclosed s := by
  constructor
  · intro h hunclosed
    obtain ⟨x, hrun⟩ := Json.run_unclosed hunclosed
    obtain ⟨v, hv, hrun⟩ : ∃ v, (∀ n, v ≠ .accept n) ∧
        Json.visiting stod .value Json.Grammar.Value s { JsonParse.init with output := .null } =
          .ok (v, { JsonParse.init with output := .string x }) :=
      hrun { JsonParse.init with output := .null }
    obtain ⟨r, hr, rfl⟩ := exists_visits_iff.2 hrun
    have hok : r.ok = false := by
      rcases r.verdict_cases with ⟨n, rfl⟩ | ⟨hok, -⟩ | ⟨hok, -⟩
      · exact absurd rfl (hv n)
      · exact hok
      · exact hok
    exact nomatch h _ r _ hr hok
  · intro h out r st' hr hok
    have hrun := exists_visits_iff.1 ⟨r, hr, rfl⟩
    have hv : ∀ n, r.verdict ≠ .accept n := by
      intro n hn
      rw [ParseResult.verdict_eq_accept.1 hn] at hok
      cases hok
    by_contra hne
    refine h (Json.unclosed_of_value hrun hv ?_)
    rintro rfl
    exact hne rfl

/-- A string that is not closed. -/
theorem json_failure_unclosed : ¬ ∀ (s : List Byte) (out : JsonValue ℕ) (r : ParseResult)
    (st' : JsonParse ℕ), Visits octets (jsonVisitors fun x => stoul (x.map octet)) .value
      Json.Grammar.Value s { JsonParse.init with output := out } r st' → r.ok = false →
        st'.output = out := by
  intro h
  refine (json_failure_unchanged_iff (fun x => stoul (x.map octet)) (bytes "\"abc\x01")).1 (h _) ?_
  exact ⟨[], bytes "abc\x01", 3, rfl, nofun, Json.parses_of_accept (by decide +kernel), by decide⟩

end Hittop
