/-
**Numbers that are too large.**

The grammar has numbers of any length, `std::stod` has not: it throws `std::out_of_range` where a
number is greater than the largest `double`.  The visitors do not catch the exception, so that
`ParseValue` returns exactly where `std::stod` throws for none of the numbers it comes to, at
whatever depth.  What it comes to is settled by what is accepted in front of it.

Main definitions:

* `Hittop.Json.exactValue`, `Hittop.Json.tooLarge` — the value of a number; its magnitude exceeds
  the largest finite `double`;
* `Hittop.Json.StodThrows` — what is assumed of `std::stod` on such a number;
* `Hittop.Json.Elements`, `Hittop.Json.Inside` — where the elements of a list, and the values inside
  a value, begin;
* `Hittop.Json.Reaches` — the texts of the numbers that a parse of `Value` comes to.

Main results:

* `Hittop.Json.raises_recordValueOf` — what a parse of `Value` raises, where `m` are the values
  inside;
* `Hittop.json_returns_iff` — when `ParseValue` returns;
* `Hittop.Json.not_returns_of_tooLarge` — it does not where it comes to a number that is too large.
-/

import Hittop.Json.Acting
import Hittop.Json.Taking
import Hittop.Json.Unescaping
import Hittop.Raising
import Mathlib.Algebra.Order.Field.Basic
import Mathlib.Algebra.Order.Ring.Rat
import Mathlib.Tactic.NormNum
import Mathlib.Tactic.Positivity

set_option relaxedAutoImplicit false
set_option autoImplicit false

namespace Hittop

namespace Json

open Exec Grammar Meaning
open Recognizer (Hungry)
open Uri.Grammar (lit)

variable {δ σ : Type} {stod : List Byte → Except Fault δ} {s t u : List Byte} {n : ℕ}

/-! ### The range of `double` -/

/-- The number that decimal digits stand for. -/
def decimal (ds : List Byte) : ℕ := ds.foldl (fun n d => n * 10 + (d.toNat - (chr '0').toNat)) 0

def isDigit (c : Byte) : Bool := Cctype.isdigit.test (octet c)

/-- The integer part of a number, and what follows it. -/
def integerPart (x : List Byte) : List Byte × List Byte :=
  (x.dropWhile fun c => !isDigit c).span isDigit

/-- The digits behind the decimal point, if there is one, and what follows them. -/
def fractionPart : List Byte → List Byte × List Byte
  | [] => ([], [])
  | c :: x => if c = chr '.' then x.span isDigit else ([], c :: x)

/-- The exponent, if there is one. -/
def exponentPart : List Byte → ℤ
  | c :: s :: x =>
      if c = chr 'e' ∨ c = chr 'E' then
        if s = chr '-' then -(decimal (x.takeWhile isDigit) : ℤ)
        else if s = chr '+' then decimal (x.takeWhile isDigit)
        else decimal ((s :: x).takeWhile isDigit)
      else 0
  | _ => 0

/-- The digits of a number without its decimal point, and the power of ten that goes with them. -/
def scientific (x : List Byte) : ℕ × ℤ :=
  let (integer, rest) := integerPart x
  let (fraction, rest) := fractionPart rest
  (decimal (integer ++ fraction), exponentPart rest - fraction.length)

/-- The sign of a number. -/
def isNegative (x : List Byte) : Bool := (x.dropWhile (space octet)).head? == some (chr '-')

/-- The value of a number. -/
def exactValue (x : List Byte) : ℚ :=
  (if isNegative x then -1 else 1) * ((scientific x).1 * 10 ^ (scientific x).2)

/-- The largest finite `double`. -/
def largestDouble : ℕ := (2 ^ 53 - 1) * 2 ^ 971

/-- `bound` is less than `n`, times a power of ten. -/
def exceeds (bound n : ℕ) (exponent : ℤ) : Bool :=
  if 0 ≤ exponent then decide (bound < n * 10 ^ exponent.toNat)
  else decide (bound * 10 ^ (-exponent).toNat < n)

/-- The magnitude of a number exceeds the largest finite `double`. -/
def tooLarge (x : List Byte) : Bool := exceeds largestDouble (scientific x).1 (scientific x).2

theorem exceeds_iff (bound n : ℕ) (exponent : ℤ) :
    exceeds bound n exponent = true ↔ (bound : ℚ) < n * 10 ^ exponent := by
  rw [exceeds]
  split_ifs with h
  · obtain ⟨k, rfl⟩ := Int.eq_ofNat_of_zero_le h
    rw [decide_eq_true_iff, Int.toNat_natCast, zpow_natCast]
    exact_mod_cast Iff.rfl
  · obtain ⟨k, hk⟩ := Int.eq_ofNat_of_zero_le (a := -exponent) (by omega)
    obtain rfl : exponent = -(k : ℤ) := by omega
    rw [decide_eq_true_iff, neg_neg, Int.toNat_natCast, zpow_neg, zpow_natCast, ← div_eq_mul_inv,
      lt_div_iff₀ (by positivity)]
    exact_mod_cast Iff.rfl

theorem tooLarge_iff {x : List Byte} :
    tooLarge x = true ↔ (largestDouble : ℚ) < |exactValue x| := by
  have habs : |exactValue x| = (scientific x).1 * 10 ^ (scientific x).2 := by
    have hsign : |(if isNegative x then -1 else 1 : ℚ)| = 1 := by split_ifs <;> simp
    have hpower : (0 : ℚ) ≤ 10 ^ (scientific x).2 := zpow_nonneg (by norm_num) _
    rw [exactValue, abs_mul, hsign, one_mul, abs_of_nonneg (mul_nonneg (Nat.cast_nonneg _) hpower)]
  rw [tooLarge, exceeds_iff, habs]

/-- What is assumed of `std::stod`: it throws `std::out_of_range` on a number whose magnitude
exceeds the largest finite `double`. -/
def StodThrows (stod : List Byte → Except Fault δ) : Prop :=
  ∀ s n, recognizer octet Number s = .accept n → (largestDouble : ℚ) < |exactValue (s.take n)| →
    stod (s.take n) = .error .outOfRange

/-! ### What a parse comes to -/

/-- Where the elements of a list with commas begin. -/
inductive Elements (f : Recognizer Byte) : List Byte → List Byte → Prop
  | first (s : List Byte) : Elements f s s
  | next {s t u : List Byte} {n : ℕ} (accept : f s = .accept n) (comma : s.drop n = chr ',' :: t)
      (rest : Elements f t u) : Elements f s u

/-- Where the values inside an array or an object begin.  `v` are the values. -/
inductive Inside (v : Recognizer Byte) (s : List Byte) : List Byte → Prop
  | element {t u : List Byte} (bracket : s.dropWhile (space octet) = chr '[' :: t)
      (before : Elements (trim octet v) t u) : Inside v s (u.dropWhile (space octet))
  | member {t u x : List Byte} {n : ℕ} (bracket : s.dropWhile (space octet) = chr '{' :: t)
      (before : Elements (property octet v) t u)
      (name : trim octet (recognizer octet Grammar.String) u = .accept n)
      (colon : u.drop n = chr ':' :: x) : Inside v s (x.dropWhile (space octet))

/-- A parse of `Value` comes to the text of a number. -/
inductive Reaches : List Byte → List Byte → Prop
  | number {s : List Byte} {n : ℕ} (accept : recognizer octet Number s = .accept n) :
      Reaches s (s.take n)
  | inside {s t x : List Byte} (inside : Inside (value octet) s t) (rest : Reaches t x) :
    Reaches s x

/-! ### The shapes of the rules -/

section Shapes

variable {m : Meaning Byte σ} {f : Recognizer Byte} {X : List Byte → Prop}

theorem char_eq_accept {x : Char} (hx : octet (chr x) = ch x) :
    char octet x s = .accept n ↔ n = 1 ∧ ∃ t, s = chr x :: t :=
  lit_eq_accept hx

theorem spaces_eq_accept :
    (reading octet).spaces s = .accept n ↔ n = (s.takeWhile (space octet)).length := by
  rw [spaces_eq, Recognizer.stretch_apply, Verdict.accept.injEq, eq_comm]

theorem drop_spaces (s : List Byte) :
    s.drop (s.takeWhile (space octet)).length = s.dropWhile (space octet) := by
  have hsplit := List.prefix_iff_eq_append.1 (List.takeWhile_prefix (l := s) (space octet))
  exact List.append_cancel_left (hsplit.trans List.takeWhile_append_dropWhile.symm)

theorem raises_trimmed (h : Raises m X) (hm : Judges m f) :
    Raises (m.trimmed octet) fun s => X (s.dropWhile (space octet)) := by
  have hinside : Raises (m.seq (lift (reading octet).spaces)) X :=
    (h.seq hm .lift).congr fun s => by simp
  refine (Raises.lift.seq .lift hinside).congr fun s => ?_
  constructor
  · rintro (hfalse | ⟨n, hn, hX⟩)
    · exact hfalse.elim
    · rwa [spaces_eq_accept.1 hn, drop_spaces] at hX
  · intro hX
    exact .inr ⟨_, spaces_eq_accept.2 rfl, by rwa [drop_spaces]⟩

/-- What follows a character. -/
theorem raises_char_seq {x : Char} (hx : octet (chr x) = ch x) (h : Raises m X) :
    Raises ((Meaning.char octet x).seq m) fun s => ∃ t, s = chr x :: t ∧ X t := by
  refine (Raises.lift.seq .lift h).congr fun s => ?_
  constructor
  · rintro (hfalse | ⟨n, hn, hX⟩)
    · exact hfalse.elim
    · obtain ⟨rfl, t, rfl⟩ := (char_eq_accept hx).1 hn
      exact ⟨t, rfl, hX⟩
  · rintro ⟨t, rfl, hX⟩
    exact .inr ⟨1, (char_eq_accept hx).2 ⟨rfl, t, rfl⟩, hX⟩

theorem raises_enclosed {first last : Char} (hfirst : octet (chr first) = ch first) (h : Raises m X)
    (hm : Judges m f) : Raises (m.enclosed octet first last)
      fun s => ∃ t, s.dropWhile (space octet) = chr first :: t ∧ X t := by
  have hinside : Raises (m.seq (Meaning.char octet last)) X :=
    (h.seq hm .lift).congr fun s => by simp
  exact raises_trimmed (raises_char_seq hfirst hinside) (Keeps.lift.seq (Keeps.seq hm .lift))

/-- Where an element begins that is not the first one. -/
theorem elements_iff : (∃ t, Elements f s t ∧ X t) ↔ X s ∨ ∃ n, f s = .accept n ∧
    ∃ t, Turns ((char octet ',').seq f) (s.drop n) t ∧ ∃ u, t = chr ',' :: u ∧ X u := by
  constructor
  · rintro ⟨t, ht, hX⟩
    induction ht with
    | first => exact .inl hX
    | next accept comma rest ih =>
        refine .inr ⟨_, accept, ?_⟩
        rcases ih hX with hX | ⟨k, hk, z, hz, hu⟩
        · exact ⟨_, .start _, _, comma, hX⟩
        · have hturn : ((char octet ',').seq f) _ = .accept (1 + k) :=
            Recognizer.seq_eq_accept.2 ⟨1, k, (char_eq_accept (by decide)).2 ⟨rfl, _, comma⟩,
              by rwa [comma], rfl⟩
          refine ⟨z, .next hturn (by omega) ?_, hu⟩
          rwa [comma, Nat.add_comm, List.drop_succ_cons]
  · rintro (hX | ⟨n, hn, t, ht, u, rfl, hX⟩)
    · exact ⟨s, .first s, hX⟩
    · generalize hz : s.drop n = z at ht
      generalize hw : chr ',' :: u = w at ht
      induction ht generalizing s n with
      | start z => exact ⟨u, .next hn (hz.trans hw.symm) (.first u), hX⟩
      | @next z w k accept pos rest ih =>
          obtain ⟨a, b, ha, hb, rfl⟩ := Recognizer.seq_eq_accept.1 accept
          obtain ⟨rfl, y, rfl⟩ := (char_eq_accept (by decide)).1 ha
          obtain ⟨x, hx, hX⟩ := ih (s := y) (n := b) hb (by rw [Nat.add_comm]; rfl) hw
          exact ⟨x, .next hn hz hx, hX⟩

theorem raises_separated (h : Raises m X) (hm : Judges m f) :
    Raises (m.separated octet) fun s => ∃ t, Elements f s t ∧ X t := by
  have hturn : Judges ((Meaning.char octet ',').seq m) ((char octet ',').seq f) := Keeps.lift.seq hm
  have hloop := (raises_char_seq (x := ',') (by decide) h).loop hturn
  refine ((h.seq hm hloop).opt (Keeps.seq hm hturn.loop)).congr fun s => ?_
  exact elements_iff.symm

end Shapes

/-! ### The visitors -/

section Visitors

theorem map_error {α β : Type} {x : Except Fault α} {f : α → β} :
    (∃ e, x.map f = .error e) ↔ ∃ e, x = .error e := by
  cases x with
  | error e => exact ⟨fun _ => ⟨e, rfl⟩, fun _ => ⟨e, rfl⟩⟩
  | ok a => exact iff_of_false ok_not_error ok_not_error

/-- Contents that have been accepted can be unescaped. -/
theorem unescape_accepted (h : recognizer octet StringContents s = .accept n) :
    ¬ ∃ e, unescapeUnsafe (s.take n) = .error e := by
  obtain ⟨out, hout⟩ := ensures_unescapes s n h [] ⟨[], rfl⟩
  rw [List.append_nil] at hout
  rintro ⟨e, he⟩
  rw [hout] at he
  cases he

theorem raises_assigned {g : Grammar} {value : List Byte → Except Fault (JsonValue δ)} :
    Raises (assigned g value)
      fun s => ∃ n, recognizer octet g s = .accept n ∧ ∃ e, value (s.take n) = .error e := by
  have hassign : Raises (assigned g value) _ := Raises.lift.locally
    (E := fun text => ∃ e, value text = .error e) .lift fun _ _ _ => map_error
  exact hassign.congr fun s => ⟨fun h => h.elim False.elim id, .inr⟩

theorem raises_assigned_pure {g : Grammar} {value : List Byte → JsonValue δ} :
    Raises (assigned g fun text => .ok (value text)) fun _ => False :=
  raises_assigned.congr fun _ => by simp

theorem raises_string : Raises ((assigned StringContents fun text =>
    (unescapeUnsafe text).map .string).enclosed octet '"' '"' : Meaning Byte (JsonParse δ))
      fun _ => False := by
  refine (raises_enclosed (by decide) raises_assigned judges_assigned).congr fun s => ?_
  refine iff_of_false ?_ id
  rintro ⟨t, -, n, hn, he⟩
  exact unescape_accepted hn (map_error.1 he)

theorem raises_named : Raises (named : Meaning Byte (JsonParse δ)) fun _ => False := by
  have hname : Raises (named : Meaning Byte (JsonParse δ)) _ := Raises.lift.locally
    (E := fun text => ∃ e, unescapeUnsafe text = .error e) .lift fun _ _ _ => map_error
  refine hname.congr fun s => iff_of_false ?_ id
  rintro (hfalse | ⟨n, hn, he⟩)
  · exact hfalse
  · exact unescape_accepted hn he

variable {m : Meaning Byte (JsonParse δ)} {v : Recognizer Byte} {X : List Byte → Prop}

theorem raises_recordArray (h : Raises m X) (hm : Judges m v) : Raises (recordArray m) fun s =>
    ∃ t, s.dropWhile (space octet) = chr '[' :: t ∧
      ∃ u, Elements (trim octet v) t u ∧ X (u.dropWhile (space octet)) := by
  have hitem : Raises (parsedNext (fun v st => { st with items := st.items ++ [v] }) m) X :=
    h.locally_pure hm
  have hjudges : Judges (parsedNext (fun v st => { st with items := st.items ++ [v] }) m) v :=
    Judges.locally hm
  have hlist := raises_separated (raises_trimmed hitem hjudges) (judges_trimmed hjudges)
  exact (raises_enclosed (by decide) hlist (judges_separated (judges_trimmed hjudges))).locally_pure
    (judges_enclosed (judges_separated (judges_trimmed hjudges)))

theorem raises_recordMember (h : Raises m X) (hm : Judges m v) : Raises (recordMember m) fun s =>
    ∃ n, trim octet (recognizer octet Grammar.String) s = .accept n ∧
      ∃ t, s.drop n = chr ':' :: t ∧ X (t.dropWhile (space octet)) := by
  have hvalue :
      Raises (parsedNext (fun v st => { st with object := emplace st.name v st.object }) m) X :=
    h.locally_pure hm
  have hjudges : Judges
      (parsedNext (fun v st => { st with object := emplace st.name v st.object }) m) v :=
    Judges.locally hm
  have hname : Raises (named.enclosed octet '"' '"' : Meaning Byte (JsonParse δ)) fun _ => False :=
    (raises_enclosed (by decide) raises_named judges_named).congr fun s => by simp
  have hquoted : Judges (named.enclosed octet '"' '"' : Meaning Byte (JsonParse δ))
      (recognizer octet Grammar.String) := by
    rw [recognizer_string]
    exact judges_enclosed judges_named
  have hinside := (raises_trimmed hname hquoted).seq (judges_trimmed hquoted)
    (raises_char_seq (x := ':') (by decide) (raises_trimmed hvalue hjudges))
  refine Raises.congr (hinside.locally_pure (Keeps.seq (judges_trimmed hquoted)
    (Keeps.lift.seq (judges_trimmed hjudges)))) fun s => ?_
  exact ⟨fun h => h.elim False.elim id, .inr⟩

theorem raises_recordObject (h : Raises m X) (hm : Judges m v) : Raises (recordObject m) fun s =>
    ∃ t, s.dropWhile (space octet) = chr '{' :: t ∧ ∃ u, Elements (property octet v) t u ∧
      ∃ n, trim octet (recognizer octet Grammar.String) u = .accept n ∧
        ∃ x, u.drop n = chr ':' :: x ∧ X (x.dropWhile (space octet)) := by
  have hjudges : Judges (recordMember m) (property octet v) := judges_recordMember hm
  have hlist := raises_separated (raises_recordMember h hm) hjudges
  exact (raises_enclosed (by decide) hlist (judges_separated hjudges)).locally_pure
    (judges_enclosed (judges_separated hjudges))

/-! ### Values -/

/-- A `Trim` goes on behind the white space in front of a text. -/
theorem trim_dropWhile (f : Recognizer Byte) (s : List Byte) : trim octet f s =
    (trim octet f (s.dropWhile (space octet))).advance (s.takeWhile (space octet)).length := by
  have hspaces : ∀ c ∈ s.takeWhile (space octet), space octet c = true :=
    fun _ hc => List.mem_takeWhile_imp hc
  rw [← trim_append hspaces, List.takeWhile_append_dropWhile]

/-- What is behind the white space in front of a text. -/
theorem not_space {c : Byte} (h : s.dropWhile (space octet) = c :: t) : space octet c = false := by
  have hhead := List.head?_dropWhile_not (space octet) s
  rw [h] at hhead
  simpa using hhead

theorem string_reject_spaces {c : Byte} (h : s.dropWhile (space octet) = c :: t)
    (hc : octet c ≠ ch '"') :
    recognizer octet Grammar.String s = .reject := by
  have hreject := string_reject (y := t) (not_space h) hc
  rw [recognizer_string, enclose] at hreject ⊢
  rw [trim_dropWhile, h, hreject]
  rfl

theorem number_reject_spaces {c : Byte} (h : s.dropWhile (space octet) = c :: t)
    (hminus : octet c ≠ ch '-') (hdigit : Cctype.isdigit.test (octet c) = false) :
    recognizer octet Number s = .reject := by
  have hreject := number_reject (y := t) (not_space h) hminus hdigit
  rw [recognizer_number] at hreject ⊢
  rw [trim_dropWhile, h, hreject]
  rfl

theorem object_reject_spaces {c : Byte} (h : s.dropWhile (space octet) = c :: t)
    (hc : octet c ≠ ch '{') :
    object octet v s = .reject := by
  have hreject := object_reject (y := t) v (not_space h) hc
  rw [object, enclose] at hreject ⊢
  rw [trim_dropWhile, h, hreject]
  rfl

/-- What is a number is no string. -/
theorem string_reject_of_number (h : recognizer octet Number s = .accept n) :
    recognizer octet Grammar.String s = .reject := by
  cases hs : s.dropWhile (space octet) with
  | nil =>
      have hnil : Hungry (recognizer octet Number) := by
        rw [recognizer_number]
        exact hungry_trim (hungry_class (g := lit '-') rfl).alt.seq
      rw [recognizer_number] at hnil h
      rw [trim_dropWhile, hs, hnil] at h
      cases h
  | cons c t =>
      refine string_reject_spaces hs fun hc => ?_
      rw [number_reject_spaces hs (by rw [hc]; decide) (by rw [hc]; decide)] at h
      cases h

/-- **What a parse of `Value` raises**, where `m` are the values inside. -/
theorem raises_recordValueOf (h : Raises m X) (hm : Judges m v) :
    Raises (recordValueOf stod m) fun s =>
    (∃ n, recognizer octet Number s = .accept n ∧ ∃ e, stod (s.take n) = .error e) ∨
      ∃ t, Inside v s t ∧ X t := by
  have halternatives : Raises (recordValueOf stod m) _ :=
    raises_string.alt judges_recordString (raises_assigned.alt judges_assigned
      ((raises_recordObject h hm).alt (judges_recordObject hm)
        ((raises_recordArray h hm).alt (judges_recordArray hm)
          (raises_assigned_pure.alt judges_assigned raises_assigned_pure))))
  refine halternatives.congr fun s => ?_
  constructor
  · rintro (hfalse | ⟨-, ⟨n, hn, he⟩ | ⟨-, ⟨t, ht, u, hu, n, hn, x, hx, hX⟩ |
      ⟨-, ⟨t, ht, u, hu, hX⟩ | ⟨-, hfalse | ⟨-, hfalse⟩⟩⟩⟩⟩)
    · exact hfalse.elim
    · exact .inl ⟨n, hn, map_error.1 he⟩
    · exact .inr ⟨_, .member ht hu hn hx, hX⟩
    · exact .inr ⟨_, .element ht hu, hX⟩
    · exact hfalse.elim
    · exact hfalse.elim
  · rintro (⟨n, hn, he⟩ | ⟨_, hinside, hX⟩)
    · exact .inr ⟨string_reject_of_number hn, .inl ⟨n, hn, map_error.2 he⟩⟩
    · cases hinside with
      | element ht hu =>
          exact .inr ⟨string_reject_spaces ht (by decide), .inr
            ⟨number_reject_spaces ht (by decide) (by decide), .inr
              ⟨object_reject_spaces ht (by decide), .inl ⟨_, ht, _, hu, hX⟩⟩⟩⟩
      | member ht hu hn hx =>
          exact .inr ⟨string_reject_spaces ht (by decide), .inr
            ⟨number_reject_spaces ht (by decide) (by decide), .inl
              ⟨_, ht, _, hu, _, hn, _, hx, hX⟩⟩⟩

end Visitors

theorem Elements.length_le {f : Recognizer Byte} (h : Elements f s t) : t.length ≤ s.length := by
  induction h with
  | first => exact Nat.le_refl _
  | next accept comma rest ih =>
      have hlength := congrArg List.length comma
      rw [List.length_drop, List.length_cons] at hlength
      omega

theorem length_dropWhile_le (s : List Byte) : (s.dropWhile (space octet)).length ≤ s.length := by
  rw [← drop_spaces, List.length_drop]
  exact Nat.sub_le _ _

/-- The values inside a value are shorter. -/
theorem Inside.length_lt {v : Recognizer Byte} (h : Inside v s t) : t.length < s.length := by
  have hle := length_dropWhile_le s
  cases h with
  | element bracket before =>
      rename_i t u
      have hbefore := before.length_le
      have hspaces := length_dropWhile_le u
      rw [bracket, List.length_cons] at hle
      omega
  | member bracket before name colon =>
      rename_i t u x n
      have hbefore := before.length_le
      have hspaces := length_dropWhile_le x
      have hcolon := congrArg List.length colon
      rw [List.length_drop, List.length_cons] at hcolon
      rw [bracket, List.length_cons] at hle
      omega

/-- **A parse of `Value` ends in an exception** where it comes to a number that `std::stod` rejects.
-/
theorem raises_value (stod : List Byte → Except Fault δ) :
    Raises (visiting stod .value Grammar.Value) fun s => ∃ x, Reaches s x ∧ ∃ e, stod x =
      .error e := by
  have hself : Raises (visiting stod .value Grammar.Value)
      fun s => ∃ e, ∀ st, visiting stod .value Grammar.Value s st = .error e := by
    intro s st
    constructor
    · rintro ⟨e, he⟩
      rcases acts_value stod s with herror | ⟨v, g, -, hrun⟩
      · exact herror
      · rw [hrun] at he
        cases he
    · rintro ⟨e, he⟩
      exact ⟨e, he st⟩
  have hnonempty : Nonempty (JsonParse δ) := ⟨.init⟩
  have hequation : Raises (recordValueOf stod _) _ := raises_recordValueOf hself (judges_value stod)
  rw [← visiting_value_eq] at hequation
  refine hself.congr fun s => ?_
  constructor
  · induction hN : s.length using Nat.strongRecOn generalizing s with
    | ind N ih =>
        intro hs
        rcases (hself.unique hequation s).1 hs with ⟨n, hn, he⟩ | ⟨t, ht, hraised⟩
        · exact ⟨_, .number hn, he⟩
        · have hlt := ht.length_lt
          obtain ⟨x, hx, he⟩ := ih t.length (by omega) t rfl hraised
          exact ⟨x, .inside ht hx, he⟩
  · rintro ⟨x, hx, he⟩
    induction hx with
    | number accept => exact (hself.unique hequation _).2 (.inl ⟨_, accept, he⟩)
    | inside inside rest ih => exact (hself.unique hequation _).2 (.inr ⟨_, inside, ih he⟩)

theorem Reaches.accepted {x : List Byte} (h : Reaches s x) :
    ∃ t n, recognizer octet Number t = .accept n ∧ x = t.take n := by
  induction h with
  | number accept => exact ⟨_, _, accept, rfl⟩
  | inside inside rest ih => exact ih

/-- A conversion to the exact value of a number. -/
def stodExact (x : List Byte) : Except Fault ℚ :=
  if tooLarge x then .error .outOfRange
  else if (integerPart x).1 = [] then .error .invalidArgument
  else .ok (exactValue x)

theorem stodThrows_exact : StodThrows stodExact :=
  fun _ _ _ hlarge => if_pos (tooLarge_iff.2 hlarge)

/-- A parse that comes to a number for which `std::stod` throws does not return. -/
theorem not_returns_of_reaches {x : List Byte} {e : Fault} (hx : Reaches s x)
    (he : stod x = .error e) : ¬ ∃ r v, ParsesValue stod s r v := by
  rintro ⟨r, v, st, hr, -⟩
  obtain ⟨e', herror⟩ := (raises_value stod s .init).2 ⟨x, hx, e, he⟩
  cases (exists_visits_iff.1 ⟨r, hr, rfl⟩).symm.trans herror

/-- **A parse that comes to a number that is too large does not return.** -/
theorem not_returns_of_tooLarge (hstod : StodThrows stod) {x : List Byte} (hx : Reaches s x)
    (hlarge : (largestDouble : ℚ) < |exactValue x|) : ¬ ∃ r v, ParsesValue stod s r v := by
  obtain ⟨t, n, hn, rfl⟩ := hx.accepted
  exact not_returns_of_reaches hx (hstod t n hn hlarge)

end Json

/-- `ParseValue` returns if and only if `std::stod` does, for all of the numbers that it comes to.
-/
theorem json_returns_iff {δ : Type} (stod : List Byte → Except Fault δ) (s : List Byte) :
    (∃ r v, ParsesValue stod s r v) ↔ ∀ x, Json.Reaches s x → ∃ d, stod x = .ok d := by
  constructor
  · intro hreturns x hx
    cases hd : stod x with
    | ok d => exact ⟨d, rfl⟩
    | error e => exact absurd hreturns (Json.not_returns_of_reaches hx hd)
  · intro h
    cases hrun : Json.visiting stod .value Json.Grammar.Value s .init with
    | error e =>
        obtain ⟨x, hx, e', he⟩ := (Json.raises_value stod s .init).1 ⟨e, hrun⟩
        obtain ⟨d, hd⟩ := h x hx
        rw [hd] at he
        cases he
    | ok q =>
        obtain ⟨v, st⟩ := q
        obtain ⟨r, hr, -⟩ := exists_visits_iff.2 hrun
        exact ⟨r, st.output, st, hr, rfl⟩

/-- A number that has an exact value. -/
theorem json_returns_iff_numeral : Json.stodExact (bytes "12.5") = .ok 12.5 ∧
    ∃ r v, ParsesValue Json.stodExact (bytes "12.5]") r v := by
  have hvalue : Json.stodExact (bytes "12.5") = .ok 12.5 := by
    decide +kernel
  refine ⟨hvalue, (json_returns_iff Json.stodExact _).2 fun x hx => ?_⟩
  cases hx with
  | number accept =>
      have haccept : recognizer octet Json.Grammar.Number (bytes "12.5]") = .accept 4 := by
        decide +kernel
      rw [haccept] at accept
      obtain rfl := Verdict.accept.inj accept
      exact ⟨_, hvalue⟩
  | inside inside rest =>
      cases inside with
      | element bracket before => exact absurd (List.cons.inj bracket).1 (by decide)
      | member bracket before name colon => exact absurd (List.cons.inj bracket).1 (by decide)

/-- A number with a large exponent, whatever the conversion. -/
theorem json_throws_exponent : Json.StodThrows Json.stodExact ∧
    (∀ c ∈ bytes "1e999 ", c.toNat < 128) ∧
      ∀ (δ : Type) (stod : List Byte → Except Fault δ), Json.StodThrows stod →
        ¬ ∃ r v, ParsesValue stod (bytes "1e999 ") r v := by
  refine ⟨Json.stodThrows_exact, Json.of_all (by decide), fun δ stod hstod => ?_⟩
  have haccept : recognizer octet Json.Grammar.Number (bytes "1e999 ") = .accept 6 := by
    decide +kernel
  have hlarge : Json.tooLarge ((bytes "1e999 ").take 6) = true := by decide +kernel
  exact Json.not_returns_of_tooLarge hstod (.number haccept) (Json.tooLarge_iff.1 hlarge)

end Hittop
