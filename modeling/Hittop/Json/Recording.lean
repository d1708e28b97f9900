/-
**What the visitors of JSON values record**, in one equation.

`ValueParseVisitor` comes back to itself at every element and every member, with variables of its
own.  This module reads off the visitors what a parse of `Value` does to their variables, given what
the parses of the values inside do.  The elements and the members are gone over a second time
without a visitor; since the visitors change no verdict, that leaves no trace.

Main definitions:

* `Hittop.Json.recordValueOf` — what a parse of `Value` records, where `m` are the values inside.

Main results:

* `Hittop.Json.judges_value` — the visitors change no verdict;
* `Hittop.Json.meaning_value_eq` — the equation of a parse of `Value` with its visitors;
* `Hittop.Json.guarded_recordValueOf` — the values inside are shorter.
-/

import Hittop.Json.Visitor
import Hittop.Persistence

set_option relaxedAutoImplicit false
set_option autoImplicit false

namespace Hittop.Json

open Grammar Meaning
open Uri.Grammar (lit)

variable {δ : Type} (stod : List Byte → Except Fault δ)

/-! ### The shapes of the visitors -/

/-- An assignment to the value behind `output_`. -/
def assigned (g : Grammar) (value : List Byte → Except Fault (JsonValue δ)) :
    Meaning Byte (JsonParse δ) :=
  (lift (recognizer octet g)).locally id
    (fun _ text st' => (value text).map fun v => { st' with output := v }) fun _ => id

/-- A value that is parsed into a variable of its own. -/
def parsedNext (use : JsonValue δ → JsonParse δ → JsonParse δ) (m : Meaning Byte (JsonParse δ)) :
    Meaning Byte (JsonParse δ) :=
  m.locally (fun st => { st with output := .null })
    (fun st _ st' => .ok (use st'.output { st' with output := st.output }))
    fun st st' => { st' with output := st.output }

/-- The name of a member. -/
def named : Meaning Byte (JsonParse δ) :=
  (lift (recognizer octet StringContents)).locally id
    (fun _ text st' => (unescapeUnsafe text).map fun s => { st' with name := s }) fun _ => id

/-- An array, where `m` are the values inside. -/
def recordArray (m : Meaning Byte (JsonParse δ)) : Meaning Byte (JsonParse δ) :=
  ((((parsedNext (fun v st => { st with items := st.items ++ [v] }) m).trimmed octet).separated
    octet).enclosed octet '[' ']').locally (fun st => { st with items := [] })
    (fun st _ st' => .ok { st' with items := st.items, output := .array st'.items })
    fun st st' => { st' with items := st.items }

/-- A member, where `m` are the values. -/
def recordMember (m : Meaning Byte (JsonParse δ)) : Meaning Byte (JsonParse δ) :=
  (((named.enclosed octet '"' '"').trimmed octet).seq ((Meaning.char octet ':').seq
    ((parsedNext (fun v st => { st with object := emplace st.name v st.object }) m).trimmed
      octet))).locally (fun st => { st with name := [] })
    (fun st _ st' => .ok { st' with name := st.name }) fun st st' => { st' with name := st.name }

/-- An object, where `m` are the values inside. -/
def recordObject (m : Meaning Byte (JsonParse δ)) : Meaning Byte (JsonParse δ) :=
  (((recordMember m).separated octet).enclosed octet '{' '}').locally
    (fun st => { st with object := [] })
    (fun st _ st' => .ok { st' with object := st.object, output := .object st'.object })
    fun st st' => { st' with object := st.object }

/-- What a parse of `Value` records, where `m` are the values inside. -/
def recordValueOf (m : Meaning Byte (JsonParse δ)) : Meaning Byte (JsonParse δ) :=
  ((assigned StringContents fun text => (unescapeUnsafe text).map .string).enclosed octet
    '"' '"').alt
    ((assigned Number fun text => (stod text).map .number).alt ((recordObject m).alt
      ((recordArray m).alt
        ((assigned Grammar.Boolean fun text =>
          .ok (.boolean (text.head?.map octet = some (ch 't')))).alt
          (assigned Null fun _ => .ok .null)))))

/-! ### The rules that are not visited -/

theorem operator_plain {v : JsonVisitor} {g : Grammar} (h : plain g = true) :
    v.operator stod g = none := by
  have hne (g' : Grammar) (hg' : g' ∈ visited) : g ≠ g' := by
    rintro rfl
    exact (of_decide_eq_true h) hg'
  have h₁ := hne StringContents (by decide)
  have h₂ := hne Number (by decide)
  have h₃ := hne Object (by decide)
  have h₄ := hne Grammar.Array (by decide)
  have h₅ := hne Grammar.Boolean (by decide)
  have h₆ := hne Null (by decide)
  have h₇ := hne Grammar.Value (by decide)
  have h₈ := hne Property (by decide)
  cases v with
  | value => simp only [JsonVisitor.operator, h₁, h₂, h₃, h₄, h₅, h₆, if_false]
  | item => simp only [JsonVisitor.operator, h₇, if_false]
  | member => simp only [JsonVisitor.operator, h₈, if_false]
  | field => simp only [JsonVisitor.operator, h₁, h₇, if_false]

theorem unvisited (v : JsonVisitor) : Unvisited octet (jsonVisitors stod) (some v) :=
  fun _ _ hg => meaning_some (operator_plain stod hg)

/-! ### The equation -/

/-- A parse of the rule with the visitor. -/
noncomputable abbrev visiting (v : JsonVisitor) (g : Grammar) : Meaning Byte (JsonParse δ) :=
  meaning (reading octet) (jsonVisitors stod) (some v) g

/-- The visitor is not callable with the rule. -/
theorem visiting_plain {v : JsonVisitor} {g : Grammar} (h : v.operator stod g = none) :
    visiting stod v g = parserMeaning (reading octet) (jsonVisitors stod) (some v) g :=
  meaning_some h

theorem meaning_none_leaf {g : Grammar}
    (hg : g.Each (Rule.RegularHead fun m => decide (m = .Star_)))
    (h : (reading octet).quiet (fun _ => true) Name.settled 32 g = true) :
    meaning (reading octet) (jsonVisitors stod) none g = lift (recognizer octet g) :=
  meaning_none_recognizer octet_inLookup (regular_of hg) h

theorem visiting_assigned {g : Grammar} (value : List Byte → Except Fault (JsonValue δ))
    (hop : JsonVisitor.value.operator stod g = JsonVisitor.assign value)
    (hg : g.Each (Rule.RegularHead fun m => decide (m = .Star_)))
    (h : (reading octet).quiet (fun _ => true) Name.settled 32 g = true) :
    visiting stod .value g = assigned g value := by
  rw [visiting, meaning_call_locally (V := jsonVisitors stod) (v := .value) hop,
    meaning_none_leaf stod hg h]
  rfl

section Copies

variable {v : JsonVisitor} {g : Grammar} {f : Recognizer Byte}
  (use : JsonValue δ → JsonParse δ → JsonParse δ)

/-- The verdict on a value that is parsed into a variable of its own is that of the second parse. -/
theorem judges_parsedNext (hop : v.operator stod g = JsonVisitor.parseNext use)
    (hnone : meaning (reading octet) (jsonVisitors stod) none g = lift f) :
    Judges (visiting stod v g) f :=
  judges_callCopy (V := jsonVisitors stod) (u := v) (some .value)
    (fun st => { st with output := .null })
    (fun st _ st' => .ok (use st'.output { st' with output := st.output }))
    (fun st st' => { st' with output := st.output }) hop hnone

theorem visiting_parsedNext (hop : v.operator stod g = JsonVisitor.parseNext use)
    (hnone : meaning (reading octet) (jsonVisitors stod) none g = lift f)
    (hjudges : Judges (visiting stod .value g) f) :
    visiting stod v g = parsedNext use (visiting stod .value g) :=
  meaning_callCopy_locally (V := jsonVisitors stod) (u := v) (some .value)
    (fun st => { st with output := .null })
    (fun st _ st' => .ok (use st'.output { st' with output := st.output }))
    (fun st st' => { st' with output := st.output }) hop hnone hjudges

end Copies

/-! ### The verdicts -/

theorem judges_assigned {g : Grammar} {value : List Byte → Except Fault (JsonValue δ)} :
    Judges (assigned g value) (recognizer octet g) := Judges.locally .lift

/-- What an assignment comes to. -/
theorem assigned_cases {g : Grammar} {value : List Byte → Except Fault (JsonValue δ)}
    {s : List Byte}
    {st st' : JsonParse δ} {v : Verdict} (h : assigned g value s st = .ok (v, st')) :
    (∃ n x, v = .accept n ∧ recognizer octet g s = .accept n ∧ value (s.take n) = .ok x ∧
      st' = { st with output := x }) ∨ ((∀ n, v ≠ .accept n) ∧ st' = st) := by
  rw [assigned, Meaning.locally] at h
  obtain ⟨st₁, hrun, ⟨n, rfl, hvalue⟩ | ⟨hno, hst⟩⟩ := finish_cases h
  · have hn : recognizer octet g s = .accept n := (Judges.verdict .lift hrun).symm
    obtain rfl : st = st₁ := (Prod.mk.inj (Except.ok.inj hrun)).2
    cases hx : value (s.take n) with
    | error e =>
        rw [hx] at hvalue
        cases hvalue
    | ok x =>
        rw [hx] at hvalue
        cases hvalue
        exact .inl ⟨n, x, rfl, hn, hx, rfl⟩
  · cases hrun
    exact .inr ⟨hno, hst⟩

theorem judges_named : Judges (named : Meaning Byte (JsonParse δ))
    (recognizer octet StringContents) :=
  Judges.locally .lift

section Shapes

variable {m : Meaning Byte (JsonParse δ)} {f : Recognizer Byte}

theorem judges_trimmed (h : Judges m f) : Judges (m.trimmed octet) (trim octet f) :=
  Keeps.lift.seq (Keeps.seq h .lift)

theorem judges_separated (h : Judges m f) : Judges (m.separated octet) (inter octet f) :=
  Keeps.alt (Keeps.seq h (Judges.loop (Keeps.seq .lift h))) .lift

theorem judges_enclosed {first last : Char} (h : Judges m f) :
    Judges (m.enclosed octet first last) (enclose octet f first last) :=
  judges_trimmed (Keeps.lift.seq (Keeps.seq h .lift))

end Shapes

/-- The verdict on an element is that of its second parse. -/
theorem judges_item : Judges (visiting stod .item Grammar.Value) (value octet) :=
  judges_parsedNext stod (fun v st => { st with items := st.items ++ [v] }) rfl
    (meaning_none_value octet_inLookup)

theorem meaning_none_property : meaning (reading octet) (jsonVisitors stod) none Property =
    lift (property octet (value octet)) := by
  have hself : meaning (reading octet) (jsonVisitors stod) none Property =
      parserMeaning (reading octet) (jsonVisitors stod) none Property :=
    meaning_none_eq_parserMeaning octet_inLookup (regular_of (by decide))
  rw [hself, parserMeaning_property (unvisited_none octet_inLookup),
    meaning_none_leaf stod (g := Grammar.String) (by decide) rfl, meaning_none_value octet_inLookup,
    trimmed_lift, trimmed_lift, Meaning.char, seq_lift, seq_lift]
  rfl

/-- So is the verdict on a member. -/
theorem judges_member : Judges (visiting stod .member Property) (property octet (value octet)) :=
  judges_callCopy (V := jsonVisitors stod) (u := .member) (some .field)
    (fun st => { st with name := [] }) (fun st _ st' => .ok { st' with name := st.name })
    (fun st st' => { st' with name := st.name }) rfl (meaning_none_property stod)

theorem visiting_array : visiting stod .value Grammar.Array =
    ((((visiting stod .item Grammar.Value).trimmed octet).separated octet).enclosed octet
      '[' ']').locally (fun st => { st with items := [] })
      (fun st _ st' => .ok { st' with items := st.items, output := .array st'.items })
      fun st st' => { st' with items := st.items } := by
  rw [← parserMeaning_array (unvisited stod .item), ← visiting_plain stod (v := .item) rfl]
  exact meaning_call_locally (V := jsonVisitors stod) (v := .value) rfl

theorem visiting_object : visiting stod .value Object =
    (((visiting stod .member Property).separated octet).enclosed octet '{' '}').locally
      (fun st => { st with object := [] })
      (fun st _ st' => .ok { st' with object := st.object, output := .object st'.object })
      fun st st' => { st' with object := st.object } := by
  rw [← parserMeaning_object (unvisited stod .member), ← visiting_plain stod (v := .member) rfl]
  exact meaning_call_locally (V := jsonVisitors stod) (v := .value) rfl

theorem visiting_string : visiting stod .value Grammar.String =
    (assigned StringContents fun text => (unescapeUnsafe text).map .string).enclosed octet
      '"' '"' := by
  rw [visiting_plain stod (g := Grammar.String) rfl, parserMeaning_string (unvisited stod .value)]
  rw [← visiting_assigned stod (g := StringContents)
    (fun text => (unescapeUnsafe text).map .string) rfl (by decide) rfl]

theorem judges_recordString : Judges ((assigned StringContents fun text =>
    (unescapeUnsafe text).map .string).enclosed octet '"' '"' : Meaning Byte (JsonParse δ))
    (recognizer octet Grammar.String) := by
  rw [recognizer_string]
  exact judges_enclosed judges_assigned

theorem judges_string : Judges (visiting stod .value Grammar.String)
    (recognizer octet Grammar.String) := by
  rw [visiting_string]
  exact judges_recordString

/-- `Value`, from the parses of its alternatives. -/
theorem visiting_value : visiting stod .value Grammar.Value =
    (visiting stod .value Grammar.String).alt ((visiting stod .value Number).alt
      ((visiting stod .value Object).alt ((visiting stod .value Grammar.Array).alt
        ((visiting stod .value Grammar.Boolean).alt (visiting stod .value Null))))) := by
  rw [← parserMeaning_value (unvisited stod .value)]
  exact meaning_some_forwardRef rfl

theorem visiting_number : visiting stod .value Number =
    assigned Number fun text => (stod text).map .number :=
  visiting_assigned stod _ rfl (by decide) rfl

theorem visiting_boolean : visiting stod .value Grammar.Boolean =
    assigned Grammar.Boolean fun text =>
    .ok (.boolean (text.head?.map octet = some (ch 't'))) :=
  visiting_assigned stod _ rfl (by decide) rfl

theorem visiting_null : visiting stod .value Null = assigned Null fun _ => .ok .null :=
  visiting_assigned stod _ rfl (by decide) rfl

/-- **The visitors of JSON values change no verdict.** -/
theorem judges_value : Judges (visiting stod .value Grammar.Value) (value octet) := by
  have hobject : Judges (visiting stod .value Object) (object octet (value octet)) := by
    rw [visiting_object]
    exact Judges.locally (judges_enclosed (judges_separated (judges_member stod)))
  have harray : Judges (visiting stod .value Grammar.Array) (array octet (value octet)) := by
    rw [visiting_array]
    exact Judges.locally (judges_enclosed (judges_separated (judges_trimmed (judges_item stod))))
  rw [visiting_value, visiting_number, visiting_boolean, visiting_null, value_eq]
  exact (judges_string stod).alt (judges_assigned.alt (hobject.alt (harray.alt
    (judges_assigned.alt judges_assigned))))

/-! ### The parse of the parts -/

theorem visiting_item : visiting stod .item Grammar.Value =
    parsedNext (fun v st => { st with items := st.items ++ [v] })
      (visiting stod .value Grammar.Value) :=
  visiting_parsedNext stod _ rfl (meaning_none_value octet_inLookup) (judges_value stod)

theorem visiting_name : visiting stod .field Grammar.String = named.enclosed octet '"' '"' := by
  have hcontents : visiting stod .field StringContents = named := by
    have hnone := meaning_none_leaf stod (g := StringContents) (by decide) rfl
    rw [visiting, meaning_callCopy_locally (V := jsonVisitors stod) (u := .field) none id
      (fun _ text st' => (unescapeUnsafe text).map fun s => { st' with name := s })
        (fun _ => id) rfl
      hnone (hnone ▸ .lift), hnone]
    rfl
  rw [← hcontents, ← parserMeaning_string (unvisited stod .field)]
  exact visiting_plain stod rfl

theorem visiting_field : visiting stod .field Grammar.Value =
    parsedNext (fun v st => { st with object := emplace st.name v st.object })
      (visiting stod .value Grammar.Value) :=
  visiting_parsedNext stod _ rfl (meaning_none_value octet_inLookup) (judges_value stod)

theorem visiting_property : visiting stod .field Property =
    ((named.enclosed octet '"' '"').trimmed octet).seq ((Meaning.char octet ':').seq
      ((parsedNext (fun v st => { st with object := emplace st.name v st.object })
        (visiting stod .value Grammar.Value)).trimmed octet)) := by
  rw [← visiting_name, ← visiting_field, ← parserMeaning_property (unvisited stod .field)]
  exact visiting_plain stod rfl

theorem judges_property : Judges (visiting stod .field Property)
    (property octet (value octet)) := by
  rw [visiting_property, property, recognizer_string]
  exact Keeps.seq (judges_trimmed (judges_enclosed judges_named))
    (Keeps.lift.seq (judges_trimmed (Judges.locally (judges_value stod))))

theorem visiting_member : visiting stod .member Property =
    recordMember (visiting stod .value Grammar.Value) := by
  have hcall := meaning_callCopy_locally (V := jsonVisitors stod) (u := .member) (some .field)
    (fun st => { st with name := [] }) (fun st _ st' => .ok { st' with name := st.name })
    (fun st st' => { st' with name := st.name }) rfl (meaning_none_property stod)
    (judges_property stod)
  rw [recordMember, ← visiting_property]
  exact hcall

/-- **The equation of a parse of `Value` with its visitors.** -/
theorem visiting_value_eq : visiting stod .value Grammar.Value =
    recordValueOf stod (visiting stod .value Grammar.Value) := by
  rw [recordValueOf, recordObject, recordArray, ← visiting_item, ← visiting_member,
    ← visiting_array, ← visiting_object, ← visiting_string, ← visiting_number, ← visiting_boolean,
    ← visiting_null]
  exact visiting_value stod

section Judges

variable {m : Meaning Byte (JsonParse δ)} {v : Recognizer Byte}

theorem judges_recordMember (h : Judges m v) : Judges (recordMember m) (property octet v) := by
  have hname : Judges (named.enclosed octet '"' '"' : Meaning Byte (JsonParse δ))
      (recognizer octet Grammar.String) := by
    rw [recognizer_string]
    exact judges_enclosed judges_named
  refine Judges.locally (Keeps.seq (judges_trimmed hname) ?_)
  exact Keeps.lift.seq (judges_trimmed (Judges.locally h))

theorem judges_recordObject (h : Judges m v) : Judges (recordObject m) (object octet v) :=
  Judges.locally (judges_enclosed (judges_separated (judges_recordMember h)))

theorem judges_recordArray (h : Judges m v) : Judges (recordArray m) (array octet v) :=
  Judges.locally (judges_enclosed (judges_separated (judges_trimmed (Judges.locally h))))

theorem judges_recordValueOf (h : Judges m v) :
    Judges (recordValueOf stod m) (valueOf octet v) :=
  Keeps.alt judges_recordString (judges_assigned.alt (Keeps.alt (judges_recordObject h)
    (Keeps.alt (judges_recordArray h) (judges_assigned.alt judges_assigned))))

end Judges

/-- A value that `ParseValue` returns. -/
theorem parsesValue_iff {s : List Byte} {n : ℕ} {v : JsonValue δ} :
    ParsesValue stod s (.success n) v ↔ ∃ st,
      visiting stod .value Grammar.Value s .init = .ok (.accept n, st) ∧ st.output = v := by
  constructor
  · rintro ⟨st, hst, hv⟩
    exact ⟨st, exists_visits_iff.1 ⟨_, hst, rfl⟩, hv⟩
  · rintro ⟨st, hst, hv⟩
    obtain ⟨r, hr, hverdict⟩ := exists_visits_iff.2 hst
    rw [ParseResult.verdict_eq_accept.1 hverdict] at hr
    exact ⟨st, hr, hv⟩

/-! ### The values inside are shorter -/

theorem agree_locally {n : ℕ} {before : JsonParse δ → JsonParse δ}
    {accepted : JsonParse δ → List Byte → JsonParse δ → Except Fault (JsonParse δ)}
    {failed : JsonParse δ → JsonParse δ → JsonParse δ} {m m' : Meaning Byte (JsonParse δ)}
    (h : AgreeTo n m m') :
    AgreeTo n (m.locally before accepted failed) (m'.locally before accepted failed) := by
  intro s hs
  funext st
  rw [Meaning.locally, Meaning.locally, Meaning.finish, Meaning.finish, h s hs]

theorem guarded_recordValueOf : Guarded (recordValueOf stod) := by
  intro n m m' h
  have hmember : AgreeTo n (recordMember m) (recordMember m') :=
    agree_locally (agree_seq .refl (agree_seq .refl (agree_trimmed octet (agree_locally h))))
  have harray : AgreeTo (n + 1) (recordArray m) (recordArray m') :=
    agree_locally (agree_enclosed octet _ _ (agree_separated octet
      (agree_trimmed octet (agree_locally h))))
  have hobject : AgreeTo (n + 1) (recordObject m) (recordObject m') :=
    agree_locally (agree_enclosed octet _ _ (agree_separated octet hmember))
  exact agree_alt .refl (agree_alt .refl (agree_alt hobject (agree_alt harray .refl)))

end Hittop.Json
