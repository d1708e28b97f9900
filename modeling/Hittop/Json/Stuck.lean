/-
**Which JSON texts are rejected.**

Between the brackets of an empty array or object the parser looks for an element, and reads the
white space before one.  Where there is none, the repetition has read nothing, and the closing
bracket is expected where the white space stands.  The parser is stuck there, or at the comma before
the element in which it got stuck, all the way up.

Main definitions:

* `Hittop.Json.Stuck` — a repetition ends before something that is not its closing character.

Main results:

* `Hittop.Json.Layout.rejects` — a text with white space in an empty array or object is rejected;
* `Hittop.json_accepts_iff` — and every other one is accepted.
-/

import Hittop.Json.Acceptance

set_option relaxedAutoImplicit false
set_option autoImplicit false

namespace Hittop.Json

open Recognizer (Reads)

variable {f : Recognizer Byte} {x y w s : List Byte} {c : Byte} {last : Char}

/-- The repetition of `f` between commas ends before something else than `last`. -/
def Stuck (f : Recognizer Byte) (last : Char) (s : List Byte) : Prop :=
  ∃ x c t, s = x ++ c :: t ∧ octet c ≠ ch last ∧ Reads (inter octet f) x (c :: t)

theorem Stuck.of_reject (hs : s = c :: y) (hc : octet c ≠ ch last) (hf : f s = .reject) :
    Stuck f last s := by
  subst hs
  exact ⟨[], c, y, rfl, hc, inter_nil hf⟩

/-- After an element and a comma, it is stuck before the comma or where the rest is. -/
theorem Stuck.cons (hlast : ch ',' ≠ ch last) (hf : Reads f x ([chr ','] ++ s))
    (h : Stuck f last s) : Stuck f last (x ++ ([chr ','] ++ s)) := by
  have hcomma (z : List Byte) : Reads (char octet ',') [chr ','] z :=
    reads_char ',' (chr ',') (by decide)
  obtain ⟨x', c, t, rfl, hc, hread⟩ := h
  by_cases hreject : f (x' ++ c :: t) = .reject
  · -- The repetition gives the comma back.
    have hturn : (char octet ',').seq f ([chr ','] ++ (x' ++ c :: t)) = .reject := by
      rw [(hcomma _).seq_apply, hreject]
      rfl
    have hseq := hf.seq (y := []) (Reads.star_nil hturn)
    rw [List.append_nil] at hseq
    exact ⟨x, chr ',', x' ++ c :: t, rfl, hlast, hseq.opt⟩
  · have hne : f.seq ((char octet ',').seq f).star (x' ++ c :: t) ≠ .reject := by
      intro h
      exact hreject ((Recognizer.seq_eq_reject_iff (Recognizer.lenient_star _)).1 h)
    have hrest : Reads (f.seq ((char octet ',').seq f).star) x' (c :: t) :=
      (Recognizer.alt_of_ne_reject hne).symm.trans hread
    have hstar : Reads ((char octet ',').seq f).star ([chr ','] ++ x') (c :: t) :=
      Reads.star_delimited (by simp) (hcomma _) hrest
    have hseq : Reads (f.seq ((char octet ',').seq f).star) (x ++ ([chr ','] ++ x')) (c :: t) :=
      hf.seq (y := [chr ','] ++ x') hstar
    exact ⟨x ++ ([chr ','] ++ x'), c, t, by simp, hc, hseq.opt⟩

theorem Stuck.reject (h : Stuck f last s) :
    (inter octet f).seq (char octet last) s = .reject := by
  obtain ⟨x, c, t, rfl, hc, hread⟩ := h
  have hlast : char octet last (c :: t) = .reject := by
    rw [char, recognizer_lit]
    exact satisfy_reject (decide_eq_false hc)
  rw [hread.seq_apply, hlast]
  rfl

theorem Stuck.enclose (h : Stuck f last s) {first : Char} (hc : octet c = ch first)
    (hspace : space octet c = false) :
    enclose octet (inter octet f) first last (c :: s) = .reject := by
  refine trim_reject hspace ?_
  rw [show c :: s = [c] ++ s from rfl, (reads_char first c hc).seq_apply, h.reject]
  rfl

theorem Stuck.array (h : Stuck (trim octet (value octet)) ']' s) :
    value octet ([chr '['] ++ s) = .reject :=
  value_array.trans (h.enclose (by decide) (by decide))

theorem Stuck.object (h : Stuck (property octet (value octet)) '}' s) :
    value octet ([chr '{'] ++ s) = .reject :=
  value_object.trans (h.enclose (by decide) (by decide))

/-- White space in front of a text. -/
theorem begins_around (w : Blanks) {cs : List Byte} (hy : Begins cs y) :
    Begins ([chr ' ', chr '\t', chr '\n', chr '\x0d'] ++ cs) (w.val ++ y) := by
  obtain ⟨w, hw⟩ := w
  cases w with
  | nil => exact hy.mono (List.subset_append_right _ _)
  | cons c w => exact ⟨c, List.mem_append_left _ (hw c List.mem_cons_self), w ++ y, rfl⟩

theorem Begins.stuck {cs : List Byte} (hs : Begins cs s) (hcs : ∀ c ∈ cs, octet c ≠ ch last)
    (hf : f s = .reject) : Stuck f last s := by
  obtain ⟨c, hc, t, hs⟩ := hs
  exact .of_reject hs (hcs c hc) hf

/-- The white space in an empty array or object. -/
theorem stuck_empty {w : Blanks} (hw : w.val.isEmpty = false)
    (hf : f (w.val ++ y) = .reject) (hlast : ∀ c ∈ [chr ' ', chr '\t', chr '\n', chr '\x0d'],
      octet c ≠ ch last) : Stuck f last (w.val ++ y) := by
  obtain ⟨w, hblank⟩ := w
  cases w with
  | nil => simp at hw
  | cons c w => exact .of_reject rfl (hlast c (hblank c List.mem_cons_self)) hf

theorem memberText_append (before between : Blanks) (name : List StringChar) (x y : List Byte) :
    memberText before name between x ++ y = memberText before name between (x ++ y) := by
  simp only [memberText, List.append_assoc]

theorem begins_member (before between : Blanks) (name : List StringChar) (x : List Byte) :
    Begins ([chr ' ', chr '\t', chr '\n', chr '\x0d'] ++ [chr '"'])
      (memberText before name between x) := by
  rw [memberText, List.append_assoc]
  exact begins_around before ⟨chr '"', by decide, _, rfl⟩

/-- A member whose value is rejected. -/
theorem stuck_member (before between : Blanks) (name : List StringChar) (beforeValue : Blanks)
    {value : Layout} (h : ∀ y, Json.value octet (value.text ++ y) = .reject) (x : List Byte) :
    Stuck (property octet (Json.value octet)) '}'
      (memberText before name between (beforeValue.val ++ (value.text ++ x))) :=
  (begins_member before between name _).stuck (of_all (by decide))
    (property_reject before between name (around_reject space_of_blank value.dense (h x)))

mutual

/-- **A value is rejected** where white space stands in an empty array or object. -/
theorem Layout.rejects : ∀ v : Layout, v.tight = false → ∀ y : List Byte,
    value octet (v.text ++ y) = .reject
  | .emptyObject w, h, y => by
      have hy : Begins closers ([chr '}'] ++ y) := ⟨chr '}', by decide, y, rfl⟩
      have hmember : property octet (value octet) (w.val ++ ([chr '}'] ++ y)) = .reject :=
        Recognizer.seq_of_reject (around_reject space_of_blank hy.dense_of_closers
          (hy.string_reject (of_all (by decide))))
      have hstuck : Stuck _ '}' _ := stuck_empty h hmember (of_all (by decide))
      rw [Layout.text, List.append_assoc, List.append_assoc]
      exact hstuck.object
  | .object members, h, y => by
      rw [Layout.text, List.append_assoc, List.append_assoc]
      exact (members.stuck h _).object
  | .emptyArray w, h, y => by
      have hy : Begins closers ([chr ']'] ++ y) := ⟨chr ']', by decide, y, rfl⟩
      have helement : trim octet (value octet) (w.val ++ ([chr ']'] ++ y)) = .reject :=
        around_reject space_of_blank hy.dense_of_closers hy.value_reject
      have hstuck : Stuck _ ']' _ := stuck_empty h helement (of_all (by decide))
      rw [Layout.text, List.append_assoc, List.append_assoc]
      exact hstuck.array
  | .array items, h, y => by
      rw [Layout.text, List.append_assoc, List.append_assoc]
      exact (items.stuck h _).array
  | .string _, h, _ | .number _, h, _ | .true, h, _ | .false, h, _ | .null, h, _ => by
      simp [Layout.tight] at h

/-- The parser gets stuck in the elements of an array. -/
theorem Items.stuck : ∀ items : Items, items.tight = false → ∀ y : List Byte,
    Stuck (trim octet (value octet)) ']' (items.text ++ y)
  | .last before item after, h, y => by
      rw [Items.text, List.append_assoc, List.append_assoc]
      exact (begins_around before item.begins).stuck (of_all (by decide))
        (around_reject space_of_blank item.dense (item.rejects h _))
  | .cons before item after rest, h, y => by
      rw [Items.text]
      cases hitem : item.tight with
      | false =>
          simp only [List.append_assoc]
          exact (begins_around before item.begins).stuck (of_all (by decide))
            (around_reject space_of_blank item.dense (item.rejects hitem _))
      | true =>
          have hrest : rest.tight = false := by simpa [Items.tight, hitem] using h
          have hy : Begins closers ([chr ','] ++ (rest.text ++ y)) := ⟨chr ',', by decide, _, rfl⟩
          have hread := (item.reads hitem after _ hy).trim (space_of_blank (w := before)) item.dense
            space_of_blank hy.dense_of_closers
          have hstuck := Stuck.cons (by decide) hread (rest.stuck hrest y)
          simpa only [List.append_assoc] using hstuck

/-- The parser gets stuck in the members of an object. -/
theorem Members.stuck : ∀ members : Members, members.tight = false → ∀ y : List Byte,
    Stuck (property octet (value octet)) '}' (members.text ++ y)
  | .last before name between beforeValue value after, h, y => by
      change Stuck _ _ (memberText before name between
        (beforeValue.val ++ (value.text ++ after.val)) ++ y)
      rw [memberText_append, List.append_assoc, List.append_assoc]
      exact stuck_member before between name beforeValue (value.rejects h) _
  | .cons before name between beforeValue value after rest, h, y => by
      change Stuck _ _ (memberText before name between
        (beforeValue.val ++ (value.text ++ after.val)) ++ ([chr ','] ++ rest.text) ++ y)
      cases hvalue : value.tight with
      | false =>
          rw [List.append_assoc, memberText_append, List.append_assoc, List.append_assoc]
          exact stuck_member before between name beforeValue (value.rejects hvalue) _
      | true =>
          have hrest : rest.tight = false := by simpa [Members.tight, hvalue] using h
          have hy : Begins closers ([chr ','] ++ (rest.text ++ y)) := ⟨chr ',', by decide, _, rfl⟩
          have hread := (value.reads hvalue after _ hy).trim
            (space_of_blank (w := beforeValue)) value.dense space_of_blank hy.dense_of_closers
          rw [List.append_assoc, List.append_assoc]
          exact Stuck.cons (by decide) (reads_property before between name hread)
            (rest.stuck hrest y)

end

/-- An array or object is read to the end of the text. -/
theorem reads_composite (v : Layout) (hv : v.composite = true) (h : v.tight = true) :
    Reads (value octet) v.text [] := by
  suffices hread : Reads (value octet) (v.text ++ []) [] by rwa [List.append_nil] at hread
  cases v with
  | emptyObject w =>
      have hnil : w.val = [] := List.isEmpty_iff.1 h
      refine reads_object ?_ nofun dense_nil
      rw [hnil]
      exact inter_nil (member_reject ⟨chr '}', by decide, _, rfl⟩)
  | object members => exact reads_object (members.reads h _).opt nofun dense_nil
  | emptyArray w =>
      have hnil : w.val = [] := List.isEmpty_iff.1 h
      refine reads_array ?_ nofun dense_nil
      rw [hnil]
      exact inter_nil (element_reject ⟨chr ']', by decide, _, rfl⟩)
  | array items => exact reads_array (items.reads h _).opt nofun dense_nil
  | string _ | number _ | true | false | null => simp [Layout.composite] at hv

end Json

/-- An array or object, however it is spelled and spaced, is accepted to its end if and only if no
white space stands between the brackets of an empty array or object in it. -/
theorem json_accepts_iff (v : Json.Layout) (hv : v.composite = true) :
    Parses octets Json.Grammar.Value v.text (.success v.text.length) ↔ v.tight = true := by
  constructor
  · intro h
    by_contra htight
    have hreject := v.rejects (Bool.eq_false_iff.2 htight) []
    have hverdict := Json.verdict_of_parses octet_inLookup h
    rw [List.append_nil] at hreject
    rw [hreject] at hverdict
    simp at hverdict
  · intro h
    obtain ⟨r, hr, hverdict⟩ := Json.exists_parses_value octet_inLookup v.text
    have hread := Json.reads_composite v hv h
    rw [Recognizer.Reads, List.append_nil] at hread
    rw [hread] at hverdict
    rwa [ParseResult.verdict_eq_accept.1 hverdict] at hr

/-- `[ 1 ,{"a" :[]}]` -/
theorem json_accepts_iff_nested :
    let none : Json.Blanks := ⟨[], List.forall_mem_nil _⟩
    let one : Json.Blanks := ⟨[32], by decide +kernel⟩
    let v : Json.Layout := .array (.cons one
      (.number ⟨false, .digits ⟨49, by decide +kernel⟩ [], .none, .none⟩) one
      (.last none (.object (.last none [.plain ⟨97, by decide +kernel⟩] one none (.emptyArray none)
        none)) none))
    v.text = bytes "[ 1 ,\x7b\"a\" :[]\x7d]" ∧
      Parses octets Json.Grammar.Value v.text (.success v.text.length) := by
  intro none one v
  exact ⟨rfl, (json_accepts_iff v rfl).2 rfl⟩

/-- A blank in an empty array. -/
theorem json_rejects_blank :
    ∃ v : Json.Layout, v.composite = true ∧ v.text = bytes "[ ]" ∧
      ¬ Parses octets Json.Grammar.Value v.text (.success v.text.length) := by
  refine ⟨.emptyArray ⟨[32], by decide +kernel⟩, rfl, rfl, fun h => ?_⟩
  have hverdict := Json.verdict_of_parses octet_inLookup h
  have hvalue : Json.value octet (bytes "[ ]") = .reject := by decide +kernel
  rw [ParseResult.verdict_success] at hverdict
  exact absurd (hverdict.trans hvalue) (by simp)

end Hittop
