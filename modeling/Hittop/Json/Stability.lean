/-
**The result of a JSON value on an extension of its text.**

Once a value has been read or rejected, more input changes neither the answer nor the value that the
visitors have recorded.  Only the white space behind a value may be read further; a numeral is
handed over to `stod` with that white space, which `stod` does not look at.

Main definitions:

* `Hittop.IgnoresSpace` — `stod` does not depend on the white space around a numeral.

Main results:

* `Hittop.Json.persists_value` — a parse of `Value` with its visitors persists;
* `Hittop.json_verdict_stable` — verdict, length and value of a text and of its extensions.
-/

import Hittop.Json.Recording
import Hittop.Json.Streaming
import Hittop.Uri.Visitor

set_option relaxedAutoImplicit false
set_option autoImplicit false

namespace Hittop

/-- The white space around a numeral does not matter, as is the case for `std::stod`: it discards
white space in front, and does not look at what it cannot convert. -/
def IgnoresSpace {δ : Type} (stod : List Byte → Except Fault δ) : Prop :=
  ∀ w x w', (∀ a ∈ w ++ w', Json.space octet a = true) → stod (w ++ (x ++ w')) = stod x

/-! ### Reading a numeral -/

/-- White space is no digit. -/
theorem takeWhile_digit_append {u w : List ℤ} (hw : ∀ a ∈ w, Cctype.isspace.test a = true) :
    (u ++ w).takeWhile (Cctype.test .isdigit) = u.takeWhile (Cctype.test .isdigit) := by
  have hnil : w.takeWhile (Cctype.test .isdigit) = [] := by
    cases w with
    | nil => rfl
    | cons a w =>
        have hspace := Cctype.isspace_iff.1 (hw a List.mem_cons_self)
        have hdigit : Cctype.isdigit.test a ≠ true := by
          rw [Ne, Cctype.isdigit_iff]
          omega
        rw [List.takeWhile_cons, if_neg hdigit]
  rw [List.takeWhile_append, hnil, List.append_nil]
  split_ifs with hall
  · exact (List.takeWhile_prefix _).eq_of_length hall |>.symm
  · rfl

theorem stoul_around {w x w' : List ℤ} (hw : ∀ a ∈ w, Cctype.isspace.test a = true)
    (hw' : ∀ a ∈ w', Cctype.isspace.test a = true) : stoul (w ++ (x ++ w')) = stoul x := by
  have hspace : w'.dropWhile (Cctype.test .isspace) = [] := List.dropWhile_eq_nil_iff.2 hw'
  have hrest : (w ++ (x ++ w')).dropWhile (Cctype.test .isspace) =
      if x.dropWhile (Cctype.test .isspace) = [] then [] else
        x.dropWhile (Cctype.test .isspace) ++ w' := by
    rw [List.dropWhile_append_of_pos hw, List.dropWhile_append, hspace]
    simp only [List.isEmpty_iff]
  rw [stoul, stoul, hrest]
  by_cases hx : x.dropWhile (Cctype.test .isspace) = []
  · rw [if_pos hx, hx]
  · rw [if_neg hx]
    generalize x.dropWhile (Cctype.test .isspace) = y at hx ⊢
    have hhead : (y ++ w').head? = y.head? := List.head?_append_of_ne_nil _ hx
    have hunsigned (c : Bool) : (if c = true then (y ++ w').tail else y ++ w') =
        (if c = true then y.tail else y) ++ w' := by
      rw [List.tail_append_of_ne_nil hx]
      split_ifs <;> rfl
    simp only [hhead, hunsigned, takeWhile_digit_append hw']

/-- Where whole numbers are concerned, `std::stoul` reads what `std::stod` does. -/
theorem ignoresSpace_stoul : IgnoresSpace fun x => stoul (x.map octet) := by
  intro w x w' hspace
  simp only [List.map_append]
  refine stoul_around (fun a ha => ?_) fun a ha => ?_
  · obtain ⟨c, hc, rfl⟩ := List.mem_map.1 ha
    exact hspace c (List.mem_append_left _ hc)
  · obtain ⟨c, hc, rfl⟩ := List.mem_map.1 ha
    exact hspace c (List.mem_append_right _ hc)

namespace Json

open Grammar Meaning
open Recognizer (Extends Hungry)

variable {δ : Type} {stod : List Byte → Except Fault δ}

/-! ### The shapes of the rules -/

section Shapes

variable {σ : Type} {m : Meaning Byte σ} {f : Recognizer Byte}

theorem persists_trimmed (h : Persists m f) (hungry : Hungry f) :
    Persists (m.trimmed octet) (trim octet f) :=
  Persists.lift.seq Extends.stretch h.seq_lift hungry.seq

theorem persists_separated (h : Persists m f) (hf : Extends (space octet) f) (hungry : Hungry f) :
    Persists (m.separated octet) (inter octet f) := by
  have hturn : Persists ((Meaning.char octet ',').seq m) ((char octet ',').seq f) :=
    Persists.lift.seq (p := space octet) (extends_char ',') h hungry
  have hextends : Extends (space octet) ((char octet ',').seq f) := (extends_char ',').seq hf hungry
  have hcomma : Hungry ((char octet ',').seq f) := (hungry_char ',').seq
  exact (h.seq hf (hturn.loop hextends hcomma) hcomma.star).opt
    (hf.seq (hextends.star hcomma) hcomma.star)

theorem persists_enclosed {first last : Char} (h : Persists m f) (hf : Extends (space octet) f)
    (hungry : Hungry f) :
    Persists (m.enclosed octet first last) (enclose octet f first last) :=
  persists_trimmed (Persists.lift.seq (p := space octet) (extends_char first)
    (h.seq hf .lift (hungry_char last)) hungry.seq) (hungry_char first).seq

end Shapes

/-! ### The visitors -/

variable {m : Meaning Byte (JsonParse δ)} {v : Recognizer Byte}

/-- Nothing is read beyond the last character of a string. -/
theorem extends_contents {p : Byte → Bool} : Extends p (recognizer octet StringContents) :=
  extends_stringChar.star hungry_stringChar

theorem hungry_contents : Hungry (recognizer octet StringContents) := hungry_stringChar.star

theorem nil_of_none {w : List Byte} (hw : ∀ a ∈ w, (fun _ : Byte => false) a = true) : w = [] := by
  cases w with
  | nil => rfl
  | cons a w => exact absurd (hw a List.mem_cons_self) (by simp)

theorem persists_contents : Persists
    (assigned StringContents fun text => (unescapeUnsafe text).map .string :
      Meaning Byte (JsonParse δ)) (recognizer octet StringContents) := by
  refine Persists.lift.locally (p := fun _ => false) extends_contents fun s n w st st' _ hw => ?_
  rw [nil_of_none hw, List.append_nil]

theorem persists_named : Persists (named : Meaning Byte (JsonParse δ))
    (recognizer octet StringContents) := by
  refine Persists.lift.locally (p := fun _ => false) extends_contents fun s n w st st' _ hw => ?_
  rw [nil_of_none hw, List.append_nil]

theorem persists_number (hstod : IgnoresSpace stod) : Persists
    (assigned Number fun text => (stod text).map .number) (recognizer octet Number) := by
  refine Persists.lift.locally (p := space octet) extends_number fun s n w st st' _ hw => ?_
  have hsame := hstod [] (s.take n) w (by simpa using hw)
  rw [List.nil_append] at hsame
  simp only [hsame]

theorem boolean_pos {s : List Byte} {n : ℕ} (h : recognizer octet Grammar.Boolean s = .accept n) :
    0 < n := by
  rw [recognizer_boolean] at h
  obtain ⟨a, b, -, hb, rfl⟩ := Recognizer.seq_eq_accept.1 h
  obtain ⟨c, d, hc, -, rfl⟩ := Recognizer.seq_eq_accept.1 hb
  have hpos : 0 < c := by
    rcases Recognizer.alt_eq_accept.1 hc with hc | ⟨-, hc⟩
    · obtain ⟨rfl, -⟩ := Recognizer.text_eq_accept.1 hc
      decide
    · obtain ⟨rfl, -⟩ := Recognizer.text_eq_accept.1 hc
      decide
  omega

/-- The text of a boolean is not empty, so that its first character remains the same. -/
theorem persists_boolean : Persists
    (assigned Grammar.Boolean fun text => .ok (.boolean (text.head?.map octet = some (ch 't'))) :
      Meaning Byte (JsonParse δ)) (recognizer octet Grammar.Boolean) := by
  refine Persists.lift.locally (p := space octet) extends_boolean fun s n w st st' hs _ => ?_
  have hlength : 0 < (s.take n).length := by
    rw [List.length_take, Nat.min_eq_left (Recognizer.le_length hs)]
    exact boolean_pos hs
  simp only [List.head?_append_of_ne_nil _ (List.length_pos_iff.1 hlength)]

theorem persists_null : Persists
    (assigned Null fun _ => .ok .null : Meaning Byte (JsonParse δ)) (recognizer octet Null) :=
  Persists.lift.locally (p := space octet) extends_null fun _ _ _ _ _ _ _ => rfl

theorem persists_parsedNext {use : JsonValue δ → JsonParse δ → JsonParse δ} (h : Persists m v)
    (hv : Extends (space octet) v) : Persists (parsedNext use m) v :=
  h.locally hv fun _ _ _ _ _ _ _ => rfl

theorem persists_recordMember (h : Persists m v) (hv : Extends (space octet) v)
    (hungry : Hungry v) :
    Persists (recordMember m) (property octet v) := by
  have hname : Persists (named.enclosed octet '"' '"' : Meaning Byte (JsonParse δ))
      (recognizer octet Grammar.String) := by
    rw [recognizer_string]
    exact persists_enclosed persists_named extends_contents hungry_contents
  refine Persists.locally (p := space octet) ?_ (extends_property hv hungry)
    fun _ _ _ _ _ _ _ => rfl
  exact (persists_trimmed hname hungry_string).seq (extends_trim extends_string hungry_string)
    (Persists.lift.seq (p := space octet) (extends_char ':')
      (persists_trimmed (persists_parsedNext h hv) hungry) (hungry_trim hungry))
        (hungry_char ':').seq

theorem persists_recordObject (h : Persists m v) (hv : Extends (space octet) v)
    (hungry : Hungry v) :
    Persists (recordObject m) (object octet v) :=
  (persists_enclosed (persists_separated (persists_recordMember h hv hungry)
    (extends_property hv hungry) hungry_property)
    (extends_inter (extends_property hv hungry) hungry_property)
    (hungry_inter hungry_property)).locally (extends_object hv hungry) fun _ _ _ _ _ _ _ => rfl

theorem persists_recordArray (h : Persists m v) (hv : Extends (space octet) v) (hungry : Hungry v) :
    Persists (recordArray m) (array octet v) :=
  (persists_enclosed (persists_separated (persists_trimmed (persists_parsedNext h hv) hungry)
    (extends_trim hv hungry) (hungry_trim hungry))
    (extends_inter (extends_trim hv hungry) (hungry_trim hungry))
    (hungry_inter (hungry_trim hungry))).locally (extends_array hv hungry) fun _ _ _ _ _ _ _ => rfl

theorem persists_recordValueOf (hstod : IgnoresSpace stod) (h : Persists m v)
    (hv : Extends (space octet) v) (hungry : Hungry v) :
    Persists (recordValueOf stod m) (valueOf octet v) := by
  have hstring : Persists ((assigned StringContents fun text =>
      (unescapeUnsafe text).map .string).enclosed octet '"' '"' : Meaning Byte (JsonParse δ))
      (recognizer octet Grammar.String) := by
    rw [recognizer_string]
    exact persists_enclosed persists_contents extends_contents hungry_contents
  exact hstring.alt extends_string ((persists_number hstod).alt extends_number
    ((persists_recordObject h hv hungry).alt (extends_object hv hungry)
      ((persists_recordArray h hv hungry).alt (extends_array hv hungry)
        (persists_boolean.alt extends_boolean persists_null))))

/-- **A parse of `Value` with its visitors persists.** -/
theorem persists_value (hstod : IgnoresSpace stod) :
    Persists (visiting stod .value Grammar.Value) (value octet) := by
  -- The visitors inside are those of a shorter text, so that the induction is on the unfoldings.
  have hunfolded (n : ℕ) : Persists
      (unfolding (recordValueOf stod) (lift Recognizer.pending) n)
      (Recognizer.unfolded (valueOf octet) n) := by
    induction n with
    | zero => exact .lift
    | succ n ih => exact persists_recordValueOf hstod ih (extends_unfolded n) (hungry_unfolded n)
  have hagree (n : ℕ) : AgreeTo n (unfolding (recordValueOf stod) (lift Recognizer.pending) n)
      (visiting stod .value Grammar.Value) :=
    (guarded_recordValueOf stod).approximates (visiting_value_eq stod) n
  refine ⟨judges_value stod, fun s t st hs => ?_⟩
  have hlength : s.length < (s ++ t).length + 1 := by
    rw [List.length_append]
    omega
  have hvalue {x : List Byte} (hx : x.length < (s ++ t).length + 1) :
      Recognizer.unfolded (valueOf octet) ((s ++ t).length + 1) x = value octet x :=
    Recognizer.unfolded_agree_fix (guardedBy_valueOf octet) x hx
  have hrun := (hunfolded ((s ++ t).length + 1)).extend s t st (by rwa [hvalue hlength])
  rwa [hagree _ s hlength, hagree _ (s ++ t) (Nat.lt_succ_self _),
    hvalue (Nat.lt_succ_self _)] at hrun

/-- The value that is recorded on an extension. -/
theorem parsesValue_append (hstod : IgnoresSpace stod) {s t : List Byte} {n n' : ℕ}
    (hs : value octet s = .accept n) (ht : value octet (s ++ t) = .accept n') {v : JsonValue δ} :
    ParsesValue stod s (.success n) v ↔ ParsesValue stod (s ++ t) (.success n') v := by
  have hrun := (persists_value hstod).extend s t .init (by simp [hs])
  rw [parsesValue_iff, parsesValue_iff, hrun, ht]
  cases hm : visiting stod .value Grammar.Value s .init with
  | error e => simp [Except.map]
  | ok q =>
      obtain ⟨w, st⟩ := q
      have hw : w = .accept n := ((judges_value stod).verdict hm).trans hs
      simp [Except.map, hw]

end Json

/-- Where a text is not incomplete, every extension of it has the same verdict.  On success nothing
more is read than white space, and that only behind a value that the text ends with; and the same
value is recorded. -/
theorem json_verdict_stable {δ : Type} {stod : List Byte → Except Fault δ}
    (hstod : IgnoresSpace stod) (s t : List Byte) {r : ParseResult}
    (h : Parses octets Json.Grammar.Value s r) (hr : r.error ≠ .incomplete) :
    ∃ r', Parses octets Json.Grammar.Value (s ++ t) r' ∧ r'.error ≠ .incomplete ∧ r'.ok = r.ok ∧
      (r.ok = true → r.pos ≤ r'.pos ∧ (r.pos < r'.pos → r.pos = s.length) ∧
        (∀ c ∈ ((s ++ t).take r'.pos).drop r.pos, Cctype.isspace.test (octet c) = true) ∧
        ∀ v, ParsesValue stod s r v ↔ ParsesValue stod (s ++ t) r' v) := by
  have hv := Json.verdict_of_parses octet_inLookup h
  obtain ⟨r', hr', hv'⟩ := Json.exists_parses_value octet_inLookup (s ++ t)
  refine ⟨r', hr', ?_⟩
  rcases r.verdict_cases with ⟨n, rfl⟩ | ⟨-, hinc, -⟩ | ⟨hok, -, hreject⟩
  · rw [ParseResult.verdict_success] at hv
    obtain ⟨k, hk, hzero, hmore⟩ := Json.extends_value.accepted s t n hv.symm
    obtain rfl := ParseResult.verdict_eq_accept.1 (hv'.trans hk)
    have hle := Recognizer.le_length hv.symm
    refine ⟨by simp, rfl, fun _ => ⟨Nat.le_add_right n k, fun hlt => ?_, fun c hc => ?_,
      fun v => Json.parsesValue_append hstod hv.symm hk⟩⟩
    · simp only [ParseResult.success_pos] at hlt ⊢
      by_contra hne
      have := hzero (by omega)
      omega
    · simp only [ParseResult.success_pos] at hc
      rcases Nat.lt_or_ge n s.length with hlt | hge
      · simp [hzero hlt] at hc
      · obtain rfl : n = s.length := Nat.le_antisymm hle hge
        rw [List.take_length_add_append, List.drop_left] at hc
        exact hmore c hc
  · exact absurd hinc hr
  · rw [hreject] at hv
    rw [Json.extends_value.rejected s t hv.symm] at hv'
    rcases r'.verdict_cases with ⟨n, rfl⟩ | ⟨-, -, hinc⟩ | ⟨hok', hne, -⟩
    · cases hv'
    · rw [hinc] at hv'
      cases hv'
    · exact ⟨hne, hok'.trans hok.symm, fun h => by simp [hok] at h⟩

/-- A numeral that more white space follows. -/
theorem json_verdict_stable_numeral :
    ∃ r', Parses octets Json.Grammar.Value (bytes "12 " ++ bytes " ]") r' ∧ r'.ok = true ∧
      3 ≤ r'.pos ∧ ∀ v, ParsesValue (fun x => stoul (x.map octet)) (bytes "12 ") (.success 3) v ↔
        ParsesValue (fun x => stoul (x.map octet)) (bytes "12 " ++ bytes " ]") r' v := by
  have hparse : Parses octets Json.Grammar.Value (bytes "12 ") (.success 3) :=
    ⟨40, by decide +kernel⟩
  obtain ⟨r', hr', -, hok, hsame⟩ := json_verdict_stable ignoresSpace_stoul (bytes "12 ")
    (bytes " ]") hparse (by decide)
  obtain ⟨hle, -, -, hvalue⟩ := hsame rfl
  exact ⟨r', hr', hok, hle, hvalue⟩

end Hittop
