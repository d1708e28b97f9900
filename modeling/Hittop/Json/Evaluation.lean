/-
**What `ParseValue` makes of a JSON text.**

The value of a layout is put together from the values of its parts as its text is from their texts.
Strings are in it as `UnescapeUnsafe` writes them, `\u` escapes included, and numbers as `std::stod`
converts them; where that throws there is no value.  `ParseValue` comes to just that value, or
throws the same exception, however the text is spelled and spaced.

Main definitions:

* `Hittop.Gives` — a parse takes a text, or it throws;
* `Hittop.Json.Layout.value` — the value that is put together from the parts of a layout.

Main results:

* `Hittop.Json.Layout.gives` — what a parse of `Value` with its visitors comes to;
* `Hittop.json_evaluates` — what `ParseValue` comes to.
-/

import Hittop.Json.Composition

set_option relaxedAutoImplicit false
set_option autoImplicit false

namespace Hittop

open Exec

/-! ### Texts that are taken, unless an exception is thrown -/

section Gives

variable {κ σ : Type}

/-- The parse takes `x` where `y` follows and comes to the state of `out`, or `out` is what it
throws. -/
def Gives (m : Meaning κ σ) (x y : List κ) (st : σ) (out : Except Fault σ) : Prop :=
  m (x ++ y) st = out.map fun st' => (Verdict.accept x.length, st')

variable {m m' : Meaning κ σ} {x y z : List κ} {st st₁ : σ} {out : Except Fault σ}
  {next : σ → Except Fault σ}

theorem Takes.gives {st' : σ} (h : Takes m x y st st') : Gives m x y st (.ok st') := h

namespace Gives

theorem seq (h : Gives m x (y ++ z) st out)
    (h' : ∀ st₁, out = .ok st₁ → Gives m' y z st₁ (next st₁)) :
    Gives (m.seq m') (x ++ y) z st (out.bind next) := by
  cases out with
  | error e =>
      rw [Gives, List.append_assoc]
      exact Meaning.seq_of_error h
  | ok st₁ =>
      have hm : m (x ++ (y ++ z)) st = .ok (.accept x.length, st₁) := h
      have hm' : Gives m' y z st₁ (next st₁) := h' st₁ rfl
      cases hnext : next st₁ with
      | ok st' =>
          rw [hnext] at hm'
          rw [Except.bind, hnext]
          exact Takes.seq hm hm'
      | error e =>
          rw [hnext] at hm'
          rw [Gives, List.append_assoc, Meaning.seq_of_accept hm, List.drop_left, bind_of_error hm',
            Except.bind, hnext]
          rfl

/-- A text in front that changes nothing but the state. -/
theorem takes_seq (h : Takes m x (y ++ z) st st₁) (h' : Gives m' y z st₁ out) :
    Gives (m.seq m') (x ++ y) z st out := by
  have hseq : Gives (m.seq m') (x ++ y) z st ((Except.ok st₁).bind fun _ => out) := by
    refine h.gives.seq fun st₂ h₂ => ?_
    obtain rfl := Except.ok.inj h₂
    exact h'
  exact hseq

/-- A text behind that changes nothing. -/
theorem seq_takes (h : Gives m x (y ++ z) st out) (h' : ∀ st, Takes m' y z st st) :
    Gives (m.seq m') (x ++ y) z st out := by
  have hseq : Gives (m.seq m') (x ++ y) z st (out.bind .ok) := h.seq fun st₁ _ => (h' st₁).gives
  cases out with
  | error e => exact hseq
  | ok st₁ => exact hseq

theorem alt_left (h : Gives m x y st out) : Gives (m.alt m') x y st out := by
  cases out with
  | error e => exact Meaning.alt_of_error h
  | ok st' => exact Takes.alt_left h

theorem alt_right (h : Refuses m (x ++ y) st st₁) (h' : Gives m' x y st₁ out) :
    Gives (m.alt m') x y st out := (Meaning.alt_of_reject h).trans h'

theorem opt (h : Gives m x y st out) : Gives m.opt x y st out := h.alt_left

theorem locally {before : σ → σ} {accepted : σ → List κ → σ → Except Fault σ}
    {failed : σ → σ → σ} (h : Gives m x y (before st) out) :
    Gives (m.locally before accepted failed) x y st (out.bind (accepted st x)) := by
  cases out with
  | error e =>
      rw [Gives, Meaning.locally, Meaning.finish, bind_of_error h]
      rfl
  | ok st₁ =>
      have hm : m (x ++ y) (before st) = .ok (.accept x.length, st₁) := h
      rw [Gives, Meaning.locally, Meaning.finish, bind_of_ok hm, Except.bind]
      simp only [List.take_left]

theorem error_iff {e : Fault} (h : Gives m x y st out) :
    m (x ++ y) st = .error e ↔ out = .error e := by
  rw [h]
  cases out with
  | error e' => exact ⟨fun he => by cases he; rfl, fun he => by cases he; rfl⟩
  | ok st' => exact ⟨nofun, nofun⟩

theorem of_error {e : Fault} (h : m (x ++ y) st = .error e) : Gives m x y st (.error e) := h

/-- A list that is read to its end can be read behind a comma. -/
theorem loop {c : Meaning κ σ} {a : List κ} (hm : (c.seq m).Bounded) (ha : a ≠ [])
    (hc : Takes c a (x ++ y) st st) (h : Gives (m.seq (c.seq m).loop) x y st out) :
    Gives (c.seq m).loop (a ++ x) y st out := by
  have hturn : (c.seq m).loop (a ++ x ++ y) st =
      Meaning.turn (c.seq m) (c.seq m).loop (a ++ (x ++ y)) st := by
    rw [List.append_assoc]
    exact congrFun (congrFun (Meaning.loop_eq hm) _) st
  cases hrun : m (x ++ y) st with
  | error e =>
      have hout : out = .error e := h.error_iff.1 (Meaning.seq_of_error hrun)
      have hboth : c.seq m (a ++ (x ++ y)) st = .error e := by
        rw [Meaning.seq_of_accept hc, List.drop_left, bind_of_error hrun]
      rw [hout]
      refine of_error (hturn.trans ?_)
      rw [Meaning.turn, bind_of_error hboth]
  | ok q =>
      obtain ⟨v, st₁⟩ := q
      have hboth : c.seq m (a ++ (x ++ y)) st = .ok (v.advance a.length, st₁) :=
        Meaning.seq_ok hc (by rwa [List.drop_left])
      cases v with
      | accept n =>
          -- what is left is the same for both
          have hpos : 0 < a.length + n := Nat.add_pos_left (List.length_pos_iff.2 ha) n
          have hdrop : (a ++ (x ++ y)).drop (a.length + n) = (x ++ y).drop n := by
            rw [← List.drop_drop, List.drop_left]
          rw [Gives, hturn, Meaning.turn_of_accept hboth hpos, hdrop]
          rw [Gives, Meaning.seq_of_accept hrun] at h
          cases hrest : (c.seq m).loop ((x ++ y).drop n) st₁ with
          | error e =>
              rw [bind_of_error hrest] at h ⊢
              cases out with
              | error e' => exact h
              | ok st' => cases h
          | ok q =>
              obtain ⟨w, st₂⟩ := q
              rw [bind_of_ok hrest] at h ⊢
              cases out with
              | error e => cases h
              | ok st' =>
                  obtain ⟨hw, rfl⟩ := Prod.mk.inj (Except.ok.inj h)
                  have hlength : w.advance (a.length + n) = .accept (a ++ x).length := by
                    rw [← Verdict.advance_advance, hw, Verdict.advance_accept, List.length_append]
                  rw [hlength]
                  rfl
      | incomplete =>
          rw [Gives, Meaning.seq_of_incomplete hrun] at h
          cases out <;> cases h
      | reject =>
          rw [Gives, Meaning.seq_of_reject hrun] at h
          cases out <;> cases h

end Gives

end Gives

namespace Json

open Grammar Meaning
open Recognizer (Reads)

variable {δ σ : Type}

/-! ### Values -/

mutual

/-- The value that is put together from the parts of a layout, or what `std::stod` throws.  The
strings are as `UnescapeUnsafe` writes them, and of the members with one name the first one
counts. -/
def Layout.value (stod : List Byte → Except Fault δ) : Layout → Except Fault (JsonValue δ)
  | .string s => .ok (.string (s.flatMap StringChar.written))
  | .number n => (stod n.text).map .number
  | .emptyObject _ => .ok (.object [])
  | .object members => (members.entries stod).map fun entries => .object (emplaceAll [] entries)
  | .emptyArray _ => .ok (.array [])
  | .array items => (items.values stod).map .array
  | .true => .ok (.boolean Bool.true)
  | .false => .ok (.boolean Bool.false)
  | .null => .ok .null

/-- The values of the elements, one after the other. -/
def Items.values (stod : List Byte → Except Fault δ) : Items → Except Fault (List (JsonValue δ))
  | .last _ item _ => (item.value stod).map fun v => [v]
  | .cons _ item _ rest => (item.value stod).bind fun v => (rest.values stod).map fun vs => v :: vs

/-- The names and the values of the members, one after the other. -/
def Members.entries (stod : List Byte → Except Fault δ) :
    Members → Except Fault (List (List Byte × JsonValue δ))
  | .last _ name _ _ value _ =>
      (value.value stod).map fun v => [(name.flatMap StringChar.written, v)]
  | .cons _ name _ _ value _ rest => (value.value stod).bind fun v =>
      (rest.entries stod).map fun es => (name.flatMap StringChar.written, v) :: es

end

/-! ### Texts with white space around them -/

section Shapes

variable {m : Meaning Byte σ} {w w' x y : List Byte} {st : σ} {out : Except Fault σ}

theorem gives_around (hw : ∀ c ∈ w, space octet c = true) (h : Gives m x (w' ++ y) st out)
    (hx : Dense (x ++ (w' ++ y))) (hw' : ∀ c ∈ w', space octet c = true) (hy : Dense y) :
    Gives (m.trimmed octet) (w ++ (x ++ w')) y st out := by
  have hspaces : Takes (lift (reading octet).spaces) w (x ++ w' ++ y) st st :=
    takes_spaces hw (by simpa using hx)
  exact .takes_seq hspaces (h.seq_takes fun st => takes_spaces hw' hy)

theorem gives_behind (hw : ∀ c ∈ w, space octet c = true) (h : Gives m x y st out)
    (hx : Dense (x ++ y)) (hy : Dense y) : Gives (m.trimmed octet) (w ++ x) y st out := by
  have haround : Gives (m.trimmed octet) (w ++ (x ++ [])) y st out := gives_around hw h hx nofun hy
  rwa [List.append_nil] at haround

theorem gives_enclosed {first last : Char} {b d : Byte} (hb : octet b = ch first)
    (hspace : space octet b = false) (hd : octet d = ch last) (h : Gives m x (d :: (w ++ y)) st out)
    (hw : ∀ c ∈ w, space octet c = true) (hy : Dense y) :
    Gives (m.enclosed octet first last) (b :: (x ++ [d]) ++ w) y st out := by
  have hinside : Gives ((Meaning.char octet first).seq (m.seq (Meaning.char octet last)))
      ([b] ++ (x ++ [d])) (w ++ y) st out :=
    .takes_seq (takes_char first hb) (h.seq_takes fun st => takes_char last hd)
  exact gives_around (w := []) nofun hinside (dense_cons hspace) hw hy

theorem gives_assigned {δ : Type} {g : Grammar} {value : List Byte → Except Fault (JsonValue δ)}
    {st : JsonParse δ} (h : Reads (recognizer octet g) x y) :
    Gives (assigned g value) x y st ((value x).map fun v => { st with output := v }) :=
  (Takes.lift h).gives.locally

/-! ### Lists -/

/-- The last part of a list is followed by a closing bracket. -/
theorem gives_last {d : Byte} (hm : ((Meaning.char octet ',').seq m).Bounded)
    (hd : octet d ≠ ch ',') (h : Gives m x (d :: y) st out) :
    Gives (m.seq ((Meaning.char octet ',').seq m).loop) x (d :: y) st out := by
  have hstop (st : σ) : Refuses ((Meaning.char octet ',').seq m) (d :: y) st st := by
    refine Refuses.seq_left (.lift ?_)
    rw [recognizer_lit]
    exact satisfy_reject (decide_eq_false hd)
  have hlist := h.seq_takes (y := []) fun st => Takes.loop_nil hm (hstop st)
  rwa [List.append_nil] at hlist

theorem gives_cons {next : σ → Except Fault σ} (hm : ((Meaning.char octet ',').seq m).Bounded)
    (h : Gives m x ([chr ','] ++ w ++ y) st out)
    (hrest : ∀ st₁, out = .ok st₁ →
      Gives (m.seq ((Meaning.char octet ',').seq m).loop) w y st₁ (next st₁)) :
    Gives (m.seq ((Meaning.char octet ',').seq m).loop) (x ++ ([chr ','] ++ w)) y st
      (out.bind next) :=
  h.seq fun st₁ h₁ => (hrest st₁ h₁).loop hm (List.cons_ne_nil _ _) (takes_char ',' (by decide))

end Shapes

/-! ### The alternatives of `Value` -/

variable {stod : List Byte → Except Fault δ} {x w y before : List Byte}
  {out : Except Fault (JsonValue δ)}

/-- The element of an array, with the white space around it. -/
noncomputable abbrev element (stod : List Byte → Except Fault δ) : Meaning Byte (JsonParse δ) :=
  (parsedNext (fun v st => { st with items := st.items ++ [v] })
    (visiting stod .value Grammar.Value)).trimmed octet

/-- The member of an object. -/
noncomputable abbrev member (stod : List Byte → Except Fault δ) : Meaning Byte (JsonParse δ) :=
  recordMember (visiting stod .value Grammar.Value)

/-- A value is read together with the white space behind it, or without it. -/
def GivesValue (stod : List Byte → Except Fault δ) (x w y : List Byte)
    (out : Except Fault (JsonValue δ)) : Prop :=
  (∀ st, Gives (visiting stod .value Grammar.Value) (x ++ w) y st
    (out.map fun v => { st with output := v })) ∨
  ∀ st, Gives (visiting stod .value Grammar.Value) x (w ++ y) st
    (out.map fun v => { st with output := v })

/-- A value that is read into a variable of its own, with the white space around it. -/
theorem GivesValue.part (h : GivesValue stod x w y out)
    (hbefore : ∀ c ∈ before, space octet c = true) (hx : Dense (x ++ (w ++ y)))
    (hw : ∀ c ∈ w, space octet c = true) (hy : Dense y)
    (use : JsonValue δ → JsonParse δ → JsonParse δ) (st : JsonParse δ) :
    Gives ((parsedNext use (visiting stod .value Grammar.Value)).trimmed octet)
      (before ++ (x ++ w)) y st (out.map fun v => use v st) := by
  have hnext {x y : List Byte} (h : Gives (visiting stod .value Grammar.Value) x y
      { st with output := .null } (out.map fun v => { st with output := v })) :
      Gives (parsedNext use (visiting stod .value Grammar.Value)) x y st
        (out.map fun v => use v st) := by
    have hlocally : Gives (parsedNext use (visiting stod .value Grammar.Value)) x y st
        ((out.map fun v => { st with output := v }).bind fun st' =>
          .ok (use st'.output { st' with output := st.output })) := h.locally
    cases out <;> exact hlocally
  rcases h with h | h
  · exact gives_behind hbefore (hnext (h _)) (by simpa using hx) hy
  · exact gives_around hbefore (hnext (h _)) hx hw hy

theorem gives_string (s : List StringChar) (w : Blanks) (hy : Dense y) :
    GivesValue stod ([chr '"'] ++ (stringText s ++ [chr '"'])) w.val y
      (.ok (.string (s.flatMap StringChar.written))) := by
  refine .inl fun st => ?_
  have hcontents : Gives (assigned StringContents fun text => (unescapeUnsafe text).map .string)
      (stringText s) (chr '"' :: (w.val ++ y)) st
      (.ok { st with output := (.string (s.flatMap StringChar.written) : JsonValue δ) }) := by
    have hassigned : Gives (assigned StringContents fun text => (unescapeUnsafe text).map .string)
        (stringText s) (chr '"' :: (w.val ++ y)) st
        (((unescapeUnsafe (stringText s)).map .string).map fun v =>
          { st with output := (v : JsonValue δ) }) := gives_assigned (reads_contents s)
    rwa [unescape_stringText] at hassigned
  rw [visiting_value_eq, recordValueOf]
  exact (gives_enclosed (by decide) (by decide) (by decide) hcontents space_of_blank hy).alt_left

/-- A number: `std::stod` does not look at the white space. -/
theorem gives_number (hstod : IgnoresSpace stod) (n : Numeral) (w : Blanks)
    (hy : Begins closers y) :
    GivesValue stod n.text w.val y ((stod n.text).map .number) := by
  refine .inl fun st => ?_
  have hreads := reads_number n space_of_blank (ends_of_closers w hy) hy.dense_of_closers
  have hassigned : Gives (assigned Number fun text => (stod text).map .number) (n.text ++ w.val) y
      st (((stod (n.text ++ w.val)).map .number).map fun v => { st with output := v }) :=
    gives_assigned hreads
  have hspace : stod (n.text ++ w.val) = stod n.text :=
    hstod [] n.text w.val fun c hc => space_of_blank c (by simpa using hc)
  rw [hspace] at hassigned
  obtain ⟨c, hc, z, hz⟩ : Begins (bytes "-0123456789") (n.text ++ w.val ++ y) := by
    rw [List.append_assoc]
    exact n.begins
  have hall : ∀ c ∈ bytes "-0123456789", space octet c = false ∧ octet c ≠ ch '"' :=
    of_all (by decide)
  have hstring : Refuses ((assigned StringContents fun text =>
      (unescapeUnsafe text).map .string).enclosed octet '"' '"') (n.text ++ w.val ++ y) st st := by
    rw [hz]
    exact refuses_enclosed (w := []) nofun (hall c hc).1 (hall c hc).2
  rw [visiting_value_eq, recordValueOf]
  exact .alt_right hstring hassigned.alt_left

theorem gives_boolean {b : Bool} {c : Byte} {text : List Byte}
    (h : c :: text = bytes "true" ∧ b = true ∨ c :: text = bytes "false" ∧ b = false) (w : Blanks)
    (hy : Dense y) : GivesValue stod (c :: text) w.val y (.ok (.boolean b)) := by
  refine .inl fun st => ?_
  have hc : c = chr 't' ∧ b = true ∨ c = chr 'f' ∧ b = false := by
    rcases h with ⟨htext, hb⟩ | ⟨htext, hb⟩
    · exact .inl ⟨(List.cons.inj htext).1, hb⟩
    · exact .inr ⟨(List.cons.inj htext).1, hb⟩
  have htoken : Reads ((recognizer octet tokens.True).alt (recognizer octet tokens.False))
      (c :: text) (w.val ++ y) := by
    rcases h with ⟨htext, -⟩ | ⟨htext, -⟩
    · rw [htext]
      exact (reads_token (bytes "true")).alt_left
    · rw [htext]
      exact Reads.alt_right (recognizer_first (by decide) _) (reads_token (bytes "false"))
  have hdense : Dense (c :: text ++ (w.val ++ y)) := by
    refine dense_cons ?_
    rcases hc with ⟨rfl, -⟩ | ⟨rfl, -⟩ <;> decide
  have hreads : Reads (recognizer octet Grammar.Boolean) (c :: text ++ w.val) y := by
    rw [recognizer_boolean]
    exact reads_trim htoken hdense space_of_blank hy
  have hassigned : Gives (assigned Grammar.Boolean fun text =>
      .ok (.boolean (text.head?.map octet = some (ch 't')))) (c :: text ++ w.val) y st
      (.ok { st with output := .boolean b }) := by
    have hvalue : decide ((c :: text ++ w.val).head?.map octet = some (ch 't')) = b := by
      rcases hc with ⟨rfl, rfl⟩ | ⟨rfl, rfl⟩ <;> rfl
    rw [← hvalue]
    exact gives_assigned hreads
  have hname : visiting stod .value Grammar.Value (c :: (text ++ w.val ++ y)) st = _ :=
    visiting_value_name (w := []) nofun (hdense c rfl) (by
      rcases hc with ⟨rfl, -⟩ | ⟨rfl, -⟩ <;> decide) (by
      rcases hc with ⟨rfl, -⟩ | ⟨rfl, -⟩ <;> exact of_all (by decide))
  exact hname.trans hassigned.alt_left

theorem gives_null (w y : List Byte) : GivesValue stod (bytes "null") w y (.ok .null) :=
  .inr fun st => (takes_null (w ++ y) st).gives

/-! ### Arrays and objects -/

theorem gives_array (values : Except Fault (List (JsonValue δ))) (w : Blanks)
    (h : ∀ st, Gives ((element stod).separated octet) x (chr ']' :: (w.val ++ y)) st
      (values.map fun vs => { st with items := st.items ++ vs }))
    (hy : Dense y) (st : JsonParse δ) :
    Gives (visiting stod .value Grammar.Value) ([chr '['] ++ (x ++ [chr ']']) ++ w.val) y st
      ((values.map .array).map fun v => { st with output := v }) := by
  have harray : Gives (recordArray (visiting stod .value Grammar.Value))
      ([chr '['] ++ (x ++ [chr ']']) ++ w.val) y st
      ((values.map .array).map fun v => { st with output := v }) := by
    have hlocally : Gives (recordArray (visiting stod .value Grammar.Value))
        ([chr '['] ++ (x ++ [chr ']']) ++ w.val) y st
        ((values.map fun vs => { st with items := [] ++ vs }).bind fun st' =>
          .ok { st' with items := st.items, output := .array st'.items }) :=
      Gives.locally (gives_enclosed (b := chr '[') (d := chr ']') (by decide) (by decide)
        (by decide) (h { st with items := [] }) space_of_blank hy)
    cases values <;> exact hlocally
  have hbracket : visiting stod .value Grammar.Value
      ([chr '['] ++ (x ++ [chr ']']) ++ w.val ++ y) st = _ :=
    visiting_value_bracket (w := []) (c := chr '[') nofun (by decide) (by decide) (by decide)
      (by decide)
  have hobject : Refuses (recordObject (visiting stod .value Grammar.Value))
      ([chr '['] ++ (x ++ [chr ']']) ++ w.val ++ y) st st :=
    refuses_recordObject (w := []) (c := chr '[') nofun (by decide) (by decide)
  exact hbracket.trans (Gives.alt_right hobject harray.alt_left)

theorem gives_object (entries : Except Fault (List (List Byte × JsonValue δ))) (w : Blanks)
    (h : ∀ st, Gives ((member stod).separated octet) x (chr '}' :: (w.val ++ y)) st
      (entries.map fun es => { st with object := emplaceAll st.object es }))
    (hy : Dense y) (st : JsonParse δ) :
    Gives (visiting stod .value Grammar.Value) ([chr '{'] ++ (x ++ [chr '}']) ++ w.val) y st
      ((entries.map fun es => .object (emplaceAll [] es)).map fun v =>
        { st with output := v }) := by
  have hobject : Gives (recordObject (visiting stod .value Grammar.Value))
      ([chr '{'] ++ (x ++ [chr '}']) ++ w.val) y st
      ((entries.map fun es => .object (emplaceAll [] es)).map fun v =>
        { st with output := v }) := by
    have hlocally : Gives (recordObject (visiting stod .value Grammar.Value))
        ([chr '{'] ++ (x ++ [chr '}']) ++ w.val) y st
        ((entries.map fun es => { st with object := emplaceAll [] es }).bind fun st' =>
          .ok { st' with object := st.object, output := .object st'.object }) :=
      Gives.locally (gives_enclosed (b := chr '{') (d := chr '}') (by decide) (by decide)
        (by decide) (h { st with object := [] }) space_of_blank hy)
    cases entries <;> exact hlocally
  have hbracket : visiting stod .value Grammar.Value
      ([chr '{'] ++ (x ++ [chr '}']) ++ w.val ++ y) st = _ :=
    visiting_value_bracket (w := []) (c := chr '{') nofun (by decide) (by decide) (by decide)
      (by decide)
  exact hbracket.trans hobject.alt_left

/-- A member, where `x` is the text of its value. -/
theorem gives_member (before between beforeValue after : Blanks) (name : List StringChar)
    (h : GivesValue stod x after.val y out) (hx : Dense (x ++ (after.val ++ y)))
    (hy : Begins closers y) (st : JsonParse δ) :
    Gives (member stod)
      (before.val ++ ([chr '"'] ++ (stringText name ++ [chr '"']) ++ between.val) ++
        ([chr ':'] ++ (beforeValue.val ++ (x ++ after.val)))) y st
      (out.map fun v =>
        { st with object := emplace (name.flatMap StringChar.written) v st.object }) := by
  have hcolon : Dense ([chr ':'] ++ (beforeValue.val ++ (x ++ after.val)) ++ y) :=
    dense_cons (by decide)
  have hname : Takes ((named.enclosed octet '"' '"').trimmed octet)
      (before.val ++ ([chr '"'] ++ (stringText name ++ [chr '"']) ++ between.val))
      ([chr ':'] ++ (beforeValue.val ++ (x ++ after.val)) ++ y) { st with name := [] }
      { st with name := name.flatMap StringChar.written } := by
    have hcontents : Takes named (stringText name) (chr '"' :: (between.val ++
        ([chr ':'] ++ (beforeValue.val ++ (x ++ after.val)) ++ y))) { st with name := [] }
        { st with name := name.flatMap StringChar.written } := by
      refine Takes.locally (.lift (reads_contents name)) ?_
      rw [unescape_stringText]
      rfl
    have hquoted : Gives (named.enclosed octet '"' '"') _ _ _ _ :=
      gives_enclosed (b := chr '"') (d := chr '"') (by decide) (by decide) (by decide)
        hcontents.gives (space_of_blank (w := between)) hcolon
    exact gives_behind space_of_blank hquoted (dense_cons (by decide)) hcolon
  have hvalue : Gives ((parsedNext (fun v st => { st with object := emplace st.name v st.object })
      (visiting stod .value Grammar.Value)).trimmed octet) (beforeValue.val ++ (x ++ after.val)) y
      { st with name := name.flatMap StringChar.written } (out.map fun v =>
        { st with
          name := name.flatMap StringChar.written
          object := emplace (name.flatMap StringChar.written) v st.object }) :=
    h.part space_of_blank hx space_of_blank hy.dense_of_closers _ _
  have hlocally : Gives (recordMember (visiting stod .value Grammar.Value))
      (before.val ++ ([chr '"'] ++ (stringText name ++ [chr '"']) ++ between.val) ++
        ([chr ':'] ++ (beforeValue.val ++ (x ++ after.val)))) y st
      ((out.map fun v => { st with
        name := name.flatMap StringChar.written
        object := emplace (name.flatMap StringChar.written) v st.object }).bind fun st' =>
          .ok { st' with name := st.name }) :=
    Gives.locally (.takes_seq hname (.takes_seq (takes_char ':' (by decide)) hvalue))
  cases out <;> exact hlocally

/-! ### What a parse of `Value` comes to -/

theorem bounded_elements (stod : List Byte → Except Fault δ) :
    ((Meaning.char octet ',').seq (element stod)).Bounded :=
  Judges.bounded (Keeps.lift.seq (judges_trimmed (Judges.locally (judges_value stod))))

theorem bounded_members (stod : List Byte → Except Fault δ) :
    ((Meaning.char octet ',').seq (member stod)).Bounded :=
  Judges.bounded (Keeps.lift.seq (judges_recordMember (judges_value stod)))

/-- The values that are recorded one after the other. -/
theorem record_items (value : Except Fault (JsonValue δ))
    (rest : Except Fault (List (JsonValue δ))) (st : JsonParse δ) :
    ((value.map fun v => { st with items := st.items ++ [v] }).bind fun st₁ =>
      rest.map fun vs => { st₁ with items := st₁.items ++ vs }) =
      (value.bind fun v => rest.map fun vs => v :: vs).map fun vs =>
        { st with items := st.items ++ vs } := by
  cases value with
  | error e => rfl
  | ok v =>
      cases rest with
      | error e => rfl
      | ok vs => simp [Except.map, Except.bind]

theorem record_members (name : List Byte) (value : Except Fault (JsonValue δ))
    (rest : Except Fault (List (List Byte × JsonValue δ))) (st : JsonParse δ) :
    ((value.map fun v => { st with object := emplace name v st.object }).bind fun st₁ =>
      rest.map fun es => { st₁ with object := emplaceAll st₁.object es }) =
      (value.bind fun v => rest.map fun es => (name, v) :: es).map fun es =>
        { st with object := emplaceAll st.object es } := by
  cases value with
  | error e => rfl
  | ok v => cases rest <;> rfl

mutual

/-- **A value is read and recorded, or its numbers are out of range**, where nothing stands between
the brackets of an empty array or object.  A number has to be followed by something. -/
theorem Layout.gives (hstod : IgnoresSpace stod) : ∀ l : Layout, l.tight = true →
    ∀ (w : Blanks) (y : List Byte), Dense y → (∀ n, l = .number n → Begins closers y) →
      GivesValue stod l.text w.val y (l.value stod)
  | .string s, _, w, y, hy, _ => gives_string s w hy
  | .number n, _, w, y, _, hends => gives_number hstod n w (hends n rfl)
  | .emptyObject w', h, w, y, hy, _ => by
      obtain rfl : w' = ⟨[], List.forall_mem_nil _⟩ := Subtype.ext (List.isEmpty_iff.1 h)
      refine .inl (gives_object (.ok []) w (fun st => ?_) hy)
      exact (Takes.opt_nil (refuses_member ⟨chr '}', by decide, _, rfl⟩ (by
        rintro c hc
        obtain rfl : chr '}' = c := Option.some.inj hc
        decide) st).seq_left).gives
  | .object members, h, w, y, hy, _ =>
      .inl (gives_object _ w (fun st => (members.gives hstod h (w.val ++ y) st).opt) hy)
  | .emptyArray w', h, w, y, hy, _ => by
      obtain rfl : w' = ⟨[], List.forall_mem_nil _⟩ := Subtype.ext (List.isEmpty_iff.1 h)
      refine .inl (gives_array (.ok []) w (fun st => ?_) hy)
      have hnone : Takes ((element stod).separated octet) [] (chr ']' :: (w.val ++ y)) st st :=
        Takes.opt_nil (refuses_part ⟨chr ']', by decide, _, rfl⟩ st).seq_left
      change Gives _ _ _ _ (.ok { st with items := st.items ++ [] })
      rw [List.append_nil]
      exact hnone.gives
  | .array items, h, w, y, hy, _ =>
      .inl (gives_array _ w (fun st => (items.gives hstod h (w.val ++ y) st).opt) hy)
  | .true, _, w, y, hy, _ => gives_boolean (.inl ⟨rfl, rfl⟩) w hy
  | .false, _, w, y, hy, _ => gives_boolean (.inr ⟨rfl, rfl⟩) w hy
  | .null, _, w, y, _, _ => gives_null w.val y

/-- The elements of an array are read and recorded up to the bracket. -/
theorem Items.gives (hstod : IgnoresSpace stod) : ∀ items : Items, items.tight = true →
    ∀ (y : List Byte) (st : JsonParse δ),
      Gives ((element stod).seq ((Meaning.char octet ',').seq (element stod)).loop) items.text
        (chr ']' :: y) st ((items.values stod).map fun vs => { st with items := st.items ++ vs })
  | .last before item after, h, y, st => by
      have hy : Begins closers (chr ']' :: y) := ⟨chr ']', by decide, y, rfl⟩
      have hitem : Gives (element stod) (before.val ++ (item.text ++ after.val)) _ st _ :=
        (item.gives hstod h after _ hy.dense_of_closers fun _ _ => hy).part space_of_blank
          item.dense space_of_blank hy.dense_of_closers _ st
      have hlist := gives_last (bounded_elements stod) (by decide) hitem
      rw [Items.values]
      cases hv : item.value stod <;> (rw [hv] at hlist; exact hlist)
  | .cons before item after rest, h, y, st => by
      have htight : item.tight = true ∧ rest.tight = true := by simpa [Items.tight] using h
      have hy : Begins closers ([chr ','] ++ rest.text ++ (chr ']' :: y)) :=
        ⟨chr ',', by decide, _, rfl⟩
      have hitem : Gives (element stod) (before.val ++ (item.text ++ after.val)) _ st _ :=
        (item.gives hstod htight.1 after _ hy.dense_of_closers fun _ _ => hy).part space_of_blank
          item.dense space_of_blank hy.dense_of_closers _ st
      have hlist := gives_cons (bounded_elements stod) hitem
        fun st₁ _ => rest.gives hstod htight.2 y st₁
      rwa [record_items] at hlist

/-- The members of an object are read and recorded up to the brace. -/
theorem Members.gives (hstod : IgnoresSpace stod) : ∀ members : Members, members.tight = true →
    ∀ (y : List Byte) (st : JsonParse δ),
      Gives ((member stod).seq ((Meaning.char octet ',').seq (member stod)).loop) members.text
        (chr '}' :: y) st
        ((members.entries stod).map fun es => { st with object := emplaceAll st.object es })
  | .last before name between beforeValue value after, h, y, st => by
      have hy : Begins closers (chr '}' :: y) := ⟨chr '}', by decide, y, rfl⟩
      have hmember := gives_member before between beforeValue after name
        (value.gives hstod h after _ hy.dense_of_closers fun _ _ => hy) value.dense hy st
      have hlist := gives_last (bounded_members stod) (by decide) hmember
      rw [Members.entries]
      cases hv : value.value stod <;> (rw [hv] at hlist; exact hlist)
  | .cons before name between beforeValue value after rest, h, y, st => by
      have htight : value.tight = true ∧ rest.tight = true := by simpa [Members.tight] using h
      have hy : Begins closers ([chr ','] ++ rest.text ++ (chr '}' :: y)) :=
        ⟨chr ',', by decide, _, rfl⟩
      have hmember := gives_member before between beforeValue after name
        (value.gives hstod htight.1 after _ hy.dense_of_closers fun _ _ => hy) value.dense hy st
      have hlist := gives_cons (bounded_members stod) hmember
        fun st₁ _ => rest.gives hstod htight.2 y st₁
      rwa [record_members] at hlist

end

end Json

/-- **`ParseValue` puts together the value of a text from its parts**, however the text is spelled
and spaced, if nothing stands between the brackets of an empty array or object.  Its strings are as
`UnescapeUnsafe` writes them.  Where `std::stod` throws for one of the numbers, it does not
return. -/
theorem json_evaluates {δ : Type} {stod : List Byte → Except Fault δ} (hstod : IgnoresSpace stod)
    (l : Json.Layout) (htight : l.tight = true) (y : List Byte) (hy : Json.Dense y)
    (hends : ∀ n, l = .number n → Json.Begins Json.closers y) (r : ParseResult) (v : JsonValue δ) :
    ParsesValue stod (l.text ++ y) r v ↔ r = .success l.text.length ∧ l.value stod = .ok v := by
  have hgives : Gives (Json.visiting stod .value Json.Grammar.Value) l.text y .init
      ((l.value stod).map fun v => { JsonParse.init with output := v }) := by
    rcases l.gives hstod htight ⟨[], nofun⟩ y hy hends with h | h
    · exact List.append_nil l.text ▸ h .init
    · exact h .init
  constructor
  · rintro ⟨st, hvisits, hv⟩
    have hrun := (exists_visits_iff.1 ⟨r, hvisits, rfl⟩).symm.trans hgives
    cases hvalue : l.value stod with
    | error e =>
        rw [hvalue] at hrun
        cases hrun
    | ok u =>
        rw [hvalue] at hrun
        obtain ⟨hverdict, hst⟩ := Prod.mk.inj (Except.ok.inj hrun)
        rw [← hv, hst]
        exact ⟨ParseResult.verdict_eq_accept.1 hverdict, rfl⟩
  · rintro ⟨rfl, hv⟩
    rw [hv] at hgives
    exact (Json.parsesValue_iff stod).2 ⟨_, hgives, rfl⟩

/-- `{"a" :[ 1,true ]}` -/
theorem json_evaluates_nested : ∃ l : Json.Layout, l.text = bytes "\x7b\"a\" :[ 1,true ]\x7d" ∧
    ParsesValue (fun x => stoul (x.map octet)) l.text (.success l.text.length)
      (.object [(bytes "a", .array [.number 1, .boolean true])]) := by
  let none : Json.Blanks := ⟨[], List.forall_mem_nil _⟩
  let one : Json.Blanks := ⟨[32], by decide +kernel⟩
  let l : Json.Layout := .object (.last none [.plain ⟨97, by decide +kernel⟩] one none
    (.array (.cons one (.number ⟨false, .digits ⟨49, by decide +kernel⟩ [], .none, .none⟩) none
      (.last none .true one))) none)
  have hends : ∀ n, l = .number n → Json.Begins Json.closers [] := by
    intro n h
    simp [l] at h
  exact ⟨l, rfl, (json_evaluates ignoresSpace_stoul l rfl [] Json.dense_nil hends _ _).2 ⟨rfl, rfl⟩⟩

end Hittop
