/-
**What the visitors of JSON values do with a text that they take or refuse.**

White space in front of a text is read by the same `Trim` that reads the white space behind it, and
a text that begins with none of the characters of a rule leaves the variables of its visitor as they
were.

Main results:

* `Hittop.Json.takes_around`, `Hittop.Json.takes_enclosed` — the shapes of the rules;
* `Hittop.Json.visiting_value_bracket` — a text that is neither a string nor a number;
* `Hittop.Json.visiting_value_name` — a text that is a boolean or `null`, if anything.
-/

import Hittop.Json.Acceptance
import Hittop.Json.Recording
import Hittop.Json.Streaming

set_option relaxedAutoImplicit false
set_option autoImplicit false

namespace Hittop.Json

open Grammar Meaning
open Recognizer (Reads)

variable {δ : Type} {stod : List Byte → Except Fault δ} {w w' x y : List Byte} {c : Byte}

/-! ### The shapes of the rules -/

section Shapes

variable {σ : Type} {m : Meaning Byte σ} {st st' : σ}

theorem takes_spaces (hw : ∀ c ∈ w, space octet c = true) (hy : Dense y) :
    Takes (lift (reading octet).spaces) w y st st := .lift (reads_spaces hw hy)

theorem takes_around (hw : ∀ c ∈ w, space octet c = true) (h : Takes m x (w' ++ y) st st')
    (hx : Dense (x ++ (w' ++ y))) (hw' : ∀ c ∈ w', space octet c = true) (hy : Dense y) :
    Takes (m.trimmed octet) (w ++ (x ++ w')) y st st' := by
  have hspaces : Takes (lift (reading octet).spaces) w (x ++ w' ++ y) st st :=
    takes_spaces hw (by simpa using hx)
  exact hspaces.seq (h.seq (takes_spaces hw' hy))

/-- A text without white space around it. -/
theorem takes_tight (h : Takes m x y st st') (hx : Dense (x ++ y)) (hy : Dense y) :
    Takes (m.trimmed octet) x y st st' := by
  have haround : Takes (m.trimmed octet) ([] ++ (x ++ [])) y st st' :=
    takes_around nofun h hx nofun hy
  rwa [List.nil_append, List.append_nil] at haround

theorem takes_char (b : Char) (h : octet c = ch b) : Takes (Meaning.char octet b) [c] y st st :=
  .lift (reads_char b c h)

theorem takes_enclosed {first last : Char} {b d : Byte} (hb : octet b = ch first)
    (hspace : space octet b = false) (hd : octet d = ch last) (h : Takes m x (d :: y) st st')
    (hy : Dense y) : Takes (m.enclosed octet first last) (b :: (x ++ [d])) y st st' := by
  have hinside : Takes ((Meaning.char octet first).seq (m.seq (Meaning.char octet last)))
      ([b] ++ (x ++ [d])) y st st' := (takes_char first hb).seq (h.seq (takes_char last hd))
  exact takes_tight hinside (dense_cons hspace) hy

theorem refuses_around (hw : ∀ c ∈ w, space octet c = true) (hy : Dense y)
    (h : Refuses m y st st') :
    Refuses (m.trimmed octet) (w ++ y) st st' :=
  (takes_spaces hw hy).seq_refuses h.seq_left

theorem refuses_enclosed {first last : Char} (hw : ∀ c ∈ w, space octet c = true)
    (hc : space octet c = false) (h : octet c ≠ ch first) :
    Refuses (m.enclosed octet first last) (w ++ c :: y) st st := by
  refine refuses_around hw (dense_cons hc) (Refuses.seq_left (.lift ?_))
  rw [recognizer_lit]
  exact satisfy_reject (decide_eq_false h)

end Shapes

/-! ### The alternatives of a value -/

variable {m : Meaning Byte (JsonParse δ)} {st : JsonParse δ}

theorem takes_assigned {g : Grammar} {value : List Byte → Except Fault (JsonValue δ)}
    {v : JsonValue δ} (h : Reads (recognizer octet g) x y) (hv : value x = .ok v) :
    Takes (assigned g value) x y st { st with output := v } := by
  refine Takes.locally (.lift h) ?_
  rw [hv]
  rfl

theorem refuses_assigned {g : Grammar} {value : List Byte → Except Fault (JsonValue δ)}
    (h : recognizer octet g y = .reject) : Refuses (assigned g value) y st st :=
  Refuses.locally (.lift h) rfl

theorem refuses_recordObject (hw : ∀ c ∈ w, space octet c = true) (hc : space octet c = false)
    (h : octet c ≠ ch '{') : Refuses (recordObject m) (w ++ c :: y) st st :=
  Refuses.locally (refuses_enclosed hw hc h) rfl

theorem refuses_recordArray (hw : ∀ c ∈ w, space octet c = true) (hc : space octet c = false)
    (h : octet c ≠ ch '[') : Refuses (recordArray m) (w ++ c :: y) st st :=
  Refuses.locally (refuses_enclosed hw hc h) rfl

theorem refuses_number (hw : ∀ c ∈ w, space octet c = true) (hc : space octet c = false)
    (hminus : octet c ≠ ch '-') (hdigit : Cctype.isdigit.test (octet c) = false)
    {value : List Byte → Except Fault (JsonValue δ)} :
    Refuses (assigned Number value) (w ++ c :: y) st st := by
  refine refuses_assigned ?_
  have hreject := number_reject (y := y) hc hminus hdigit
  rw [recognizer_number] at hreject ⊢
  rw [trim_append hw, hreject]
  rfl

/-- A text that begins with neither a quote nor a sign or a digit is no string and no number. -/
theorem visiting_value_bracket (hw : ∀ c ∈ w, space octet c = true) (hc : space octet c = false)
    (hdigit : Cctype.isdigit.test (octet c) = false) (hquote : octet c ≠ ch '"')
    (hminus : octet c ≠ ch '-') :
    visiting stod .value Grammar.Value (w ++ c :: y) st =
      ((recordObject (visiting stod .value Grammar.Value)).alt
        ((recordArray (visiting stod .value Grammar.Value)).alt
          ((assigned Grammar.Boolean fun text =>
            .ok (.boolean (text.head?.map octet = some (ch 't')))).alt
            (assigned Null fun _ => .ok .null)))) (w ++ c :: y) st := by
  conv_lhs => rw [visiting_value_eq, recordValueOf]
  rw [alt_of_reject (refuses_enclosed hw hc hquote),
    alt_of_reject (refuses_number hw hc hminus hdigit)]

/-- If it begins with no bracket either, it is a boolean or `null`, if anything. -/
theorem visiting_value_name (hw : ∀ c ∈ w, space octet c = true) (hc : space octet c = false)
    (hdigit : Cctype.isdigit.test (octet c) = false)
    (hne : ∀ x ∈ ['"', '-', '{', '['], octet c ≠ ch x) :
    visiting stod .value Grammar.Value (w ++ c :: y) st =
      ((assigned Grammar.Boolean fun text =>
          .ok (.boolean (text.head?.map octet = some (ch 't')))).alt
        (assigned Null fun _ => .ok .null)) (w ++ c :: y) st := by
  rw [visiting_value_bracket hw hc hdigit (hne _ (by decide)) (hne _ (by decide)),
    alt_of_reject (refuses_recordObject hw hc (hne _ (by decide))),
    alt_of_reject (refuses_recordArray hw hc (hne _ (by decide)))]

theorem takes_true (y : List Byte) (st : JsonParse δ) :
    Takes (visiting stod .value Grammar.Value) (bytes "true" ++ y.takeWhile (space octet))
      (y.dropWhile (space octet)) st { st with output := .boolean true } := by
  have hdense : Dense (y.dropWhile (space octet)) := by
    intro c hc
    have hhead := List.head?_dropWhile_not (space octet) y
    rw [Option.mem_def.1 hc] at hhead
    simpa using hhead
  have hreads : Reads (recognizer octet Grammar.Boolean) (bytes "true" ++ y.takeWhile (space octet))
      (y.dropWhile (space octet)) := by
    rw [recognizer_boolean]
    exact reads_trim (reads_token (bytes "true")).alt_left (dense_cons (by decide))
      (fun c hc => List.mem_takeWhile_imp hc) hdense
  have hname : visiting stod .value Grammar.Value
      (bytes "true" ++ y.takeWhile (space octet) ++ y.dropWhile (space octet)) st = _ :=
    visiting_value_name (w := []) nofun (by decide) (by decide) (of_all (by decide))
  rw [Takes, hname]
  exact Takes.alt_left (takes_assigned hreads rfl)

theorem takes_null (y : List Byte) (st : JsonParse δ) :
    Takes (visiting stod .value Grammar.Value) (bytes "null") y st { st with output := .null } := by
  have hname : visiting stod .value Grammar.Value (bytes "null" ++ y) st = _ :=
    visiting_value_name (w := []) nofun (by decide) (by decide) (of_all (by decide))
  have hboolean : recognizer octet Grammar.Boolean (bytes "null" ++ y) = .reject :=
    boolean_reject (by decide) (by decide) (by decide)
  rw [Takes, hname]
  exact Takes.alt_right (refuses_assigned hboolean)
    (takes_assigned (reads_token (bytes "null")) rfl)

end Hittop.Json
