/-
**What becomes of a string.**

`UnescapeUnsafe` looks at what it is given only as far as the grammar of a string has looked before
it, and so it comes to an end of every accepted range.  Behind a `\u` escape it goes on with the
last of the four digits, which is written a second time; and it writes the code of every value
alike, also that of a surrogate.

Main definitions:

* `Hittop.Json.codeUnit` — the value of four hexadecimal digits;
* `Hittop.Json.StringChar.meaning` — what a character of a string stands for;
* `Hittop.Json.StringChar.written` — what is written for it;
* `Hittop.Json.StringChar.surrogate` — it is an escape for a surrogate.

Main results:

* `Hittop.Json.unescape_stringText` — what is written for a string;
* `Hittop.json_unescape_iff` — it is what the string means where there is no `\u` escape;
* `Hittop.json_unescape_defined` — accepted ranges can be unescaped;
* `Hittop.json_unescape_utf8_iff` — the outcome is UTF-8 where no escape is a surrogate.
-/

import Hittop.Json.Acceptance
import Hittop.Json.Visitor
import Hittop.Library.Accepted
import Hittop.Library.Utf8

set_option relaxedAutoImplicit false
set_option autoImplicit false

namespace Hittop

namespace Json

open Grammar
open Recognizer (Ensures)
open Uri.Grammar (lit)
open Utf8 (WellFormed)

/-! ### What a string means -/

/-- The value of a hexadecimal digit. -/
def digitValue (h : HexDigit) : ℕ :=
  if h.val.toNat ≤ (chr '9').toNat then h.val.toNat - (chr '0').toNat
  else if h.val.toNat ≤ (chr 'F').toNat then h.val.toNat - (chr 'A').toNat + 10
  else h.val.toNat - (chr 'a').toNat + 10

/-- The value of four hexadecimal digits. -/
def codeUnit (h₁ h₂ h₃ h₄ : HexDigit) : ℕ :=
  ((digitValue h₁ * 16 + digitValue h₂) * 16 + digitValue h₃) * 16 + digitValue h₄

/-- The character for one behind a backslash. -/
def escaped (c : Byte) : Byte :=
  if c = chr 'b' then 8
  else if c = chr 'f' then 12
  else if c = chr 'n' then 10
  else if c = chr 'r' then 13
  else if c = chr 't' then 9
  else c

namespace StringChar

/-- What a character of a string stands for. -/
def meaning : StringChar → List Byte
  | plain c => [c.val]
  | escape c => [escaped c.val]
  | unicode h₁ h₂ h₃ h₄ => String.utf8EncodeChar (Char.ofNat (codeUnit h₁ h₂ h₃ h₄))

/-- It is a `\u` escape. -/
def isUnicode : StringChar → Bool
  | unicode _ _ _ _ => true
  | _ => false

/-- It is a `\u` escape for a surrogate. -/
def surrogate : StringChar → Bool
  | unicode h₁ h₂ h₃ h₄ =>
      decide (0xd800 ≤ codeUnit h₁ h₂ h₃ h₄ ∧ codeUnit h₁ h₂ h₃ h₄ ≤ 0xdfff)
  | _ => false

/-- What is written for a character of a string. -/
def written : StringChar → List Byte
  | plain c => [c.val]
  | escape c => [escaped c.val]
  | unicode h₁ h₂ h₃ h₄ => encodeUtf8 (codeUnit h₁ h₂ h₃ h₄) ++ [h₄.val]

end StringChar

/-! ### Digits -/

theorem digitValue_lt (h : HexDigit) : digitValue h < 16 := by
  have hh := h.property
  obtain ⟨h0, h9, hA, hF, ha, hf⟩ := hexDigit_bounds
  unfold digitValue
  split_ifs <;> omega

theorem codeUnit_lt (h₁ h₂ h₃ h₄ : HexDigit) : codeUnit h₁ h₂ h₃ h₄ < 65536 := by
  have hlt₁ := digitValue_lt h₁
  have hlt₂ := digitValue_lt h₂
  have hlt₃ := digitValue_lt h₃
  have hlt₄ := digitValue_lt h₄
  unfold codeUnit
  omega

theorem hexValue_digit (h : HexDigit) : hexValue (octet h.val) = digitValue h := by
  have hh := h.property
  obtain ⟨h0, h9, hA, hF, ha, hf⟩ := hexDigit_bounds
  have h0' : ch '0' = 48 := rfl
  have h9' : ch '9' = 57 := rfl
  have hA' : ch 'A' = 65 := rfl
  have ha' : ch 'a' = 97 := rfl
  unfold hexValue digitValue octet
  split_ifs <;> omega

/-- Bits that do not overlap are added. -/
theorem hexValue16_digits (h₁ h₂ h₃ h₄ : HexDigit) :
    hexValue16 h₁.val h₂.val h₃.val h₄.val = codeUnit h₁ h₂ h₃ h₄ := by
  have hlt₂ := digitValue_lt h₂
  have hlt₃ := digitValue_lt h₃
  have hlt₄ := digitValue_lt h₄
  have hlow : digitValue h₃ <<< 4 ||| digitValue h₄ = digitValue h₃ <<< 4 + digitValue h₄ :=
    (Nat.shiftLeft_add_eq_or_of_lt (i := 4) (by omega) _).symm
  have hmiddle : digitValue h₂ <<< 8 ||| (digitValue h₃ <<< 4 + digitValue h₄) =
      digitValue h₂ <<< 8 + (digitValue h₃ <<< 4 + digitValue h₄) := by
    refine (Nat.shiftLeft_add_eq_or_of_lt (i := 8) ?_ _).symm
    rw [Nat.shiftLeft_eq]
    omega
  have hhigh : digitValue h₁ <<< 12 |||
      (digitValue h₂ <<< 8 + (digitValue h₃ <<< 4 + digitValue h₄)) =
      digitValue h₁ <<< 12 + (digitValue h₂ <<< 8 + (digitValue h₃ <<< 4 + digitValue h₄)) := by
    refine (Nat.shiftLeft_add_eq_or_of_lt (i := 12) ?_ _).symm
    rw [Nat.shiftLeft_eq, Nat.shiftLeft_eq]
    omega
  have hunit := codeUnit_lt h₁ h₂ h₃ h₄
  rw [hexValue16, hexValue_digit, hexValue_digit, hexValue_digit, hexValue_digit, Nat.or_assoc,
    Nat.or_assoc, hlow, hmiddle, hhigh]
  simp only [Nat.shiftLeft_eq, codeUnit] at hunit ⊢
  omega

/-! ### Codes -/

/-- The octets behind the first one hold six bits each. -/
theorem tail_octet (u : ℕ) : 0x80 ||| (u &&& 0x3f) = u % 64 + 128 := by
  have hmask : u &&& 0x3f = u % 64 := Nat.and_two_pow_sub_one_eq_mod u 6
  have hor : 0x80 ||| u % 64 = 0x80 + u % 64 :=
    (Nat.two_pow_add_eq_or_of_lt (i := 7) (by omega) 1).symm
  rw [hmask, hor, Nat.add_comm]

/-- **The code of a value that is a scalar.** -/
theorem encodeUtf8_scalar {u : ℕ} (hlt : u < 65536) (h : ¬ (0xd800 ≤ u ∧ u ≤ 0xdfff)) :
    encodeUtf8 u = String.utf8EncodeChar (Char.ofNat u) := by
  have hval : (Char.ofNat u).val.toNat = u := by
    refine Utf8.toNat_ofNat ?_
    unfold Nat.isValidChar
    omega
  have htwo (v : ℕ) : 0xc0 ||| v % 32 = v % 32 + 192 := by
    have hor : 0xc0 ||| v % 32 = 0xc0 + v % 32 :=
      (Nat.two_pow_add_eq_or_of_lt (i := 6) (by omega) 3).symm
    rw [hor, Nat.add_comm]
  have hthree (v : ℕ) : 0xe0 ||| v % 16 = v % 16 + 224 := by
    have hor : 0xe0 ||| v % 16 = 0xe0 + v % 16 :=
      (Nat.two_pow_add_eq_or_of_lt (i := 5) (by omega) 7).symm
    rw [hor, Nat.add_comm]
  have hmask₅ (v : ℕ) : v &&& 0x1f = v % 32 := Nat.and_two_pow_sub_one_eq_mod v 5
  have hmask₄ (v : ℕ) : v &&& 0x0f = v % 16 := Nat.and_two_pow_sub_one_eq_mod v 4
  simp only [encodeUtf8, String.utf8EncodeChar, hval, tail_octet, hmask₅, hmask₄,
    Nat.shiftRight_eq_div_pow, htwo, hthree]
  split_ifs <;> first | omega | rfl

/-- **The code of a surrogate.** -/
theorem encodeUtf8_surrogate {u : ℕ} (h : 0xd800 ≤ u ∧ u ≤ 0xdfff) :
    ∃ a b c : Byte, encodeUtf8 u = [a, b, c] ∧ a.toNat = 0xed ∧ 0xa0 ≤ b.toNat := by
  have hmask₄ (v : ℕ) : v &&& 0x0f = v % 16 := Nat.and_two_pow_sub_one_eq_mod v 4
  have hfirst : u >>> 12 = 13 := by
    rw [Nat.shiftRight_eq_div_pow]
    omega
  refine ⟨_, _, _, by rw [encodeUtf8, if_neg (by omega), if_neg (by omega)], ?_, ?_⟩
  · rw [hfirst]
    rfl
  · rw [tail_octet, UInt8.toNat_ofNat', Nat.shiftRight_eq_div_pow]
    omega

/-! ### What is written -/

theorem unescape_plain {c : Byte} (hc : octet c ≠ ch '\\') (s : List Byte) :
    unescapeUnsafe (c :: s) = (unescapeUnsafe s).map fun out => c :: out := by
  rw [unescapeUnsafe.eq_def]
  simp only [hc, if_false]

theorem unescape_escape {e c : Byte} (he : unescapeChar e = some c) (s : List Byte) :
    unescapeUnsafe (chr '\\' :: e :: s) = (unescapeUnsafe s).map fun out => c :: out := by
  have hc : octet (chr '\\') = ch '\\' := by decide
  rw [unescapeUnsafe.eq_def]
  simp only [hc, if_true, he]

theorem unescape_unicode (h₁ h₂ h₃ h₄ : Byte) (s : List Byte) :
    unescapeUnsafe (chr '\\' :: chr 'u' :: h₁ :: h₂ :: h₃ :: h₄ :: s) =
      (unescapeUnsafe (h₄ :: s)).map fun out => encodeUtf8 (hexValue16 h₁ h₂ h₃ h₄) ++ out := by
  have hc : octet (chr '\\') = ch '\\' := by decide
  have hu : octet (chr 'u') = ch 'u' := by decide
  have hnone : unescapeChar (chr 'u') = none := by decide
  rw [unescapeUnsafe.eq_def]
  simp only [hc, if_true, hnone, hu]

theorem digit_ne_backslash (h : HexDigit) : octet h.val ≠ ch '\\' := by
  intro hval
  have heq : h.val = chr '\\' := octet_injective (hval.trans (by decide))
  have hprop := h.property
  rw [heq] at hprop
  exact absurd hprop (by decide)

theorem unescapeChar_escape (c : EscapeChar) : unescapeChar c.val = some (escaped c.val) := by
  have hall : ∀ c ∈ bytes "\"\\/bfnrt", unescapeChar c = some (escaped c) := of_all (by decide)
  exact hall c.val c.property

/-- What is written for the first character of a string. -/
theorem unescape_text_append (a : StringChar) (s : List Byte) :
    unescapeUnsafe (a.text ++ s) = (unescapeUnsafe s).map fun out => a.written ++ out := by
  cases a with
  | plain c =>
      exact unescape_plain (fun h => c.property.2.2.2 (octet_injective (h.trans (by decide)))) s
  | escape c => exact unescape_escape (unescapeChar_escape c) s
  | unicode h₁ h₂ h₃ h₄ =>
      -- the loop goes on with the last digit, which stands for itself
      refine (unescape_unicode h₁ h₂ h₃ h₄ s).trans ?_
      rw [unescape_plain (digit_ne_backslash h₄), hexValue16_digits]
      cases unescapeUnsafe s with
      | error e => rfl
      | ok out => exact congrArg Except.ok (List.append_assoc _ [h₄.val] out).symm

/-- **What is written for a string.** -/
theorem unescape_stringText (es : List StringChar) :
    unescapeUnsafe (stringText es) = .ok (es.flatMap StringChar.written) := by
  induction es with
  | nil => rfl
  | cons a es ih =>
      have hcons := unescape_text_append a (stringText es)
      rw [ih] at hcons
      exact hcons

theorem written_eq_meaning {a : StringChar} (h : a.isUnicode = false) : a.written = a.meaning := by
  cases a with
  | plain c => rfl
  | escape c => rfl
  | unicode h₁ h₂ h₃ h₄ => cases h

/-- The last digit of an escape is written in addition. -/
theorem length_written {a : StringChar} (h : a.surrogate = false) :
    a.written.length = a.meaning.length + if a.isUnicode then 1 else 0 := by
  cases a with
  | plain c => rfl
  | escape c => rfl
  | unicode h₁ h₂ h₃ h₄ =>
      have hcode := encodeUtf8_scalar (codeUnit_lt h₁ h₂ h₃ h₄) (of_decide_eq_false h)
      simp only [StringChar.written, StringChar.meaning, StringChar.isUnicode, if_true, hcode,
        List.length_append, List.length_singleton]

theorem length_flatMap_written {es : List StringChar} (hes : ∀ a ∈ es, a.surrogate = false) :
    (es.flatMap StringChar.written).length =
      (es.flatMap StringChar.meaning).length + es.countP StringChar.isUnicode := by
  induction es with
  | nil => rfl
  | cons a es ih =>
      obtain ⟨ha, hes⟩ := List.forall_mem_cons.1 hes
      rw [List.flatMap_cons, List.flatMap_cons, List.length_append, List.length_append, ih hes,
        length_written ha, List.countP_cons]
      omega

/-! ### UTF-8 -/

theorem wellFormed_meaning (a : StringChar) : WellFormed a.meaning := by
  cases a with
  | plain c =>
      have hlt : c.val.toNat < 128 := Nat.lt_trans c.property.2.1 (by decide)
      exact (Utf8.wellFormed_cons_ascii hlt).2 Utf8.wellFormed_nil
  | escape c =>
      have hall : ∀ c ∈ bytes "\"\\/bfnrt", (escaped c).toNat < 128 := of_all (by decide)
      exact (Utf8.wellFormed_cons_ascii (hall c.val c.property)).2 Utf8.wellFormed_nil
  | unicode h₁ h₂ h₃ h₄ => exact Utf8.wellFormed_char _

theorem digit_lt (h : HexDigit) : h.val.toNat < 128 := by
  have hh := h.property
  have h9 : (chr '9').toNat = 57 := rfl
  have hF : (chr 'F').toNat = 70 := rfl
  have hf : (chr 'f').toNat = 102 := rfl
  omega

theorem wellFormed_written {a : StringChar} (h : a.surrogate = false) : WellFormed a.written := by
  cases a with
  | plain c => exact wellFormed_meaning (.plain c)
  | escape c => exact wellFormed_meaning (.escape c)
  | unicode h₁ h₂ h₃ h₄ =>
      rw [StringChar.written, encodeUtf8_scalar (codeUnit_lt h₁ h₂ h₃ h₄) (of_decide_eq_false h)]
      exact (Utf8.wellFormed_char _).append ((Utf8.wellFormed_cons_ascii (digit_lt h₄)).2
        Utf8.wellFormed_nil)

/-- What is written for a character that is not a surrogate makes no difference to what follows. -/
theorem wellFormed_written_append {a : StringChar} (h : a.surrogate = false) {x : List Byte} :
    WellFormed (a.written ++ x) ↔ WellFormed x := by
  refine ⟨fun hx => ?_, (wellFormed_written h).append⟩
  cases a with
  | plain c =>
      exact (Utf8.wellFormed_cons_ascii (Nat.lt_trans c.property.2.1 (by decide))).1 hx
  | escape c =>
      have hall : ∀ c ∈ bytes "\"\\/bfnrt", (escaped c).toNat < 128 := of_all (by decide)
      exact (Utf8.wellFormed_cons_ascii (hall c.val c.property)).1 hx
  | unicode h₁ h₂ h₃ h₄ =>
      rw [StringChar.written, encodeUtf8_scalar (codeUnit_lt h₁ h₂ h₃ h₄) (of_decide_eq_false h),
        List.append_assoc] at hx
      exact (Utf8.wellFormed_cons_ascii (digit_lt h₄)).1 (Utf8.wellFormed_char_append.1 hx)

theorem not_wellFormed_written_append {a : StringChar} (h : a.surrogate = true) (x : List Byte) :
    ¬ WellFormed (a.written ++ x) := by
  cases a with
  | plain c => cases h
  | escape c => cases h
  | unicode h₁ h₂ h₃ h₄ =>
      obtain ⟨a, b, c, hcode, ha, hb⟩ := encodeUtf8_surrogate (of_decide_eq_true h)
      rw [StringChar.written, hcode]
      exact Utf8.not_wellFormed_surrogate ha hb

/-- **What is written for a string is UTF-8** where none of its characters is a surrogate. -/
theorem wellFormed_flatMap_written (es : List StringChar) :
    WellFormed (es.flatMap StringChar.written) ↔ ∀ a ∈ es, a.surrogate = false := by
  induction es with
  | nil => exact ⟨fun _ => nofun, fun _ => Utf8.wellFormed_nil⟩
  | cons a es ih =>
      rw [List.flatMap_cons, List.forall_mem_cons]
      cases h : a.surrogate with
      | true =>
          have hbad := not_wellFormed_written_append h (es.flatMap StringChar.written)
          exact ⟨fun hx => absurd hx hbad, fun hx => nomatch hx.1⟩
      | false =>
          rw [wellFormed_written_append h, ih]
          exact ⟨fun hes => ⟨rfl, hes⟩, And.right⟩

/-! ### Accepted ranges -/

/-- A range that `UnescapeUnsafe` goes over, whatever stands behind it. -/
def Unescapes (x : List Byte) : Prop :=
  ∀ s, (∃ out, unescapeUnsafe s = .ok out) → ∃ out, unescapeUnsafe (x ++ s) = .ok out

theorem unescapes_additive : Recognizer.Additive Unescapes where
  nil := fun _ h => h
  append := by
    intro x y hx hy s hs
    rw [List.append_assoc]
    exact hx _ (hy s hs)

theorem unescapes_text (a : StringChar) : Unescapes a.text := by
  rintro s ⟨out, hs⟩
  exact ⟨a.written ++ out, by rw [unescape_text_append, hs]; rfl⟩

/-- One of the characters of a class. -/
theorem ensures_class {g : Grammar} (hg : g.isClass = true) :
    Ensures (recognizer octet g) fun x => ∃ c, has g (octet c) = true ∧ x = [c] := by
  rw [recognizer_class hg]
  exact Ensures.satisfy fun c hc => ⟨c, hc, rfl⟩

theorem ensures_hexDigits (n : ℕ) : Ensures (recognizer octet (.exactly n hex_digit))
    fun x => ∃ hs : List HexDigit, hs.length = n ∧ x = hs.map Subtype.val := by
  have hdigit : Ensures (recognizer octet hex_digit) fun x => ∃ h : HexDigit, x = [h.val] := by
    refine (ensures_class rfl).mono ?_
    rintro x ⟨c, hc, rfl⟩
    have hrange := Cctype.isxdigit_iff.1 hc
    obtain ⟨h0, h9, hA, hF, ha, hf⟩ := hexDigit_bounds
    unfold octet at hrange
    exact ⟨⟨c, by omega⟩, rfl⟩
  change Ensures ((recognizer octet hex_digit).power n) _
  induction n with
  | zero => exact Ensures.eps ⟨[], rfl, rfl⟩
  | succ n ih =>
      refine hdigit.seq_of ih ?_
      rintro _ _ ⟨h, rfl⟩ ⟨hs, hlength, rfl⟩
      exact ⟨h :: hs, by rw [List.length_cons, hlength], rfl⟩

/-- What may stand behind a backslash. -/
theorem ensures_escapeRule : Ensures (recognizer octet escapeRule)
    fun x => ∃ a : StringChar, chr '\\' :: x = a.text := by
  have hunicode : Ensures (recognizer octet (.concat [lit 'u', .exactly 4 hex_digit]))
      fun x => ∃ a : StringChar, chr '\\' :: x = a.text := by
    rw [recognizer_pair]
    refine (lit_ensures 'u' (chr 'u') (by decide)).seq_of (ensures_hexDigits 4) ?_
    rintro _ _ rfl ⟨hs, hlength, rfl⟩
    obtain ⟨h₁, h₂, h₃, h₄, rfl⟩ := List.length_eq_four.1 hlength
    exact ⟨.unicode h₁ h₂ h₃ h₄, rfl⟩
  have hsimple (x : Char) (hx : chr x ∈ bytes "\"\\/bfnrt") (hval : octet (chr x) = ch x) :
      Ensures (recognizer octet (lit x)) fun t => ∃ a : StringChar, chr '\\' :: t = a.text := by
    refine (lit_ensures _ _ hval).mono ?_
    rintro _ rfl
    exact ⟨.escape ⟨chr x, hx⟩, rfl⟩
  simp only [escapeRule, recognizer_either, recognizer_choice]
  iterate 8 refine (hsimple _ (by decide) (by decide)).alt ?_
  exact hunicode

/-- A character that stands for itself: one of ASCII, or an octet from 128 on. -/
theorem plain_of_has {c : Byte} (h : has plainRule (octet c) = true) :
    (∃ p : PlainChar, p.val = c) ∨ 128 ≤ c.toNat := by
  have hcontrol : Cctype.iscntrl.test (octet c) = false := by
    by_contra hne
    simp [has, plainRule, Rule.test, Rule.test.testAny, control_char, hne] at h
  have hquote : c ≠ chr '"' := by
    rintro rfl
    exact absurd h (by decide)
  have hbackslash : c ≠ chr '\\' := by
    rintro rfl
    exact absurd h (by decide)
  have hrange : ¬ (0 ≤ octet c ∧ octet c < 32 ∨ octet c = 127) := by
    intro hc
    rw [Cctype.iscntrl_iff.2 (by omega)] at hcontrol
    cases hcontrol
  unfold octet at hrange
  have hspace : (chr ' ').toNat = 32 := rfl
  by_cases hc : c.toNat < 128
  · exact .inl ⟨⟨c, by omega, by omega, hquote, hbackslash⟩, rfl⟩
  · exact .inr (by omega)

/-- **What a character of a string looks like.** -/
theorem ensures_stringCharRule : Ensures (recognizer octet stringCharRule)
    fun x => (∃ a : StringChar, x = a.text) ∨ ∃ c : Byte, 128 ≤ c.toNat ∧ x = [c] := by
  rw [stringCharRule, recognizer_choice]
  refine Ensures.alt ?_ ?_
  · refine (ensures_class rfl).mono ?_
    rintro x ⟨c, hc, rfl⟩
    rcases plain_of_has hc with ⟨p, rfl⟩ | hc
    · exact .inl ⟨.plain p, rfl⟩
    · exact .inr ⟨c, hc, rfl⟩
  · rw [recognizer_pair]
    refine (lit_ensures '\\' (chr '\\') (by decide)).seq_of ensures_escapeRule ?_
    rintro _ x rfl ⟨a, ha⟩
    exact .inl ⟨a, ha⟩

/-- Accepted ranges can be unescaped. -/
theorem ensures_unescapes : Ensures (recognizer octet StringContents) Unescapes := by
  change Ensures (recognizer octet stringCharRule).star _
  refine Ensures.star unescapes_additive (ensures_stringCharRule.mono ?_)
  rintro x (⟨a, rfl⟩ | ⟨c, hc, rfl⟩)
  · exact unescapes_text a
  · rintro s ⟨out, hs⟩
    have hne : octet c ≠ ch '\\' := by
      intro h
      have hval : ch '\\' = 92 := rfl
      unfold octet at h
      omega
    exact ⟨c :: out, by rw [List.singleton_append, unescape_plain hne, hs]; rfl⟩

/-- Accepted ranges of ASCII characters are strings. -/
theorem ensures_stringText : Ensures (recognizer octet StringContents)
    fun x => (∀ c ∈ x, c.toNat < 128) → ∃ es : List StringChar, x = stringText es := by
  change Ensures (recognizer octet stringCharRule).star _
  refine ensures_stringCharRule.star_of (fun _ => ⟨[], rfl⟩) ?_
  intro x y hx hy hascii
  obtain ⟨es, rfl⟩ := hy fun c hc => hascii c (List.mem_append_right x hc)
  rcases hx with ⟨a, rfl⟩ | ⟨c, hc, rfl⟩
  · exact ⟨a :: es, rfl⟩
  · have hlt : c.toNat < 128 := hascii c (List.mem_append_left _ List.mem_cons_self)
    omega

theorem accept_of_parses {s : List Byte} {n : ℕ} (h : Parses octets StringContents s (.success n)) :
    recognizer octet StringContents s = .accept n := by
  have hverdict := h.verdict_eq octet_inLookup (n := 64) (regular_of (by decide)) rfl
  rw [← hverdict]
  rfl

theorem parses_of_accept {s : List Byte} {n : ℕ}
    (h : recognizer octet StringContents s = .accept n) :
    Parses octets StringContents s (.success n) := by
  obtain ⟨r, hr, hverdict⟩ := exists_parses octet_inLookup (n := 64) (g := StringContents) s
    (regular_of (by decide)) rfl
  rw [h, ParseResult.verdict_eq_accept] at hverdict
  rwa [hverdict] at hr

end Json

/-! ### What `UnescapeUnsafe` does with strings -/

/-- Where no `\u` escape is a surrogate, `UnescapeUnsafe` returns what a string means exactly where
there is no `\u` escape at all: the last digit of one is written behind its character. -/
theorem json_unescape_iff (es : List Json.StringChar) (hes : ∀ a ∈ es, a.surrogate = false) :
    unescapeUnsafe (Json.stringText es) = .ok (es.flatMap Json.StringChar.meaning) ↔
      ∀ a ∈ es, a.isUnicode = false := by
  rw [Json.unescape_stringText]
  constructor
  · intro h a ha
    have hlength := congrArg List.length (Except.ok.inj h)
    rw [Json.length_flatMap_written hes] at hlength
    have hcount : es.countP Json.StringChar.isUnicode = 0 := by omega
    exact Bool.eq_false_iff.2 (List.countP_eq_zero.1 hcount a ha)
  · intro h
    rw [List.flatMap_congr fun a ha => Json.written_eq_meaning (h a ha)]

/-- A character, an escape and another character. -/
theorem json_unescape_iff_tab :
    unescapeUnsafe (bytes "a\\tb") = .ok (bytes "a\tb") ∧
      ∀ a ∈ [Json.StringChar.plain ⟨97, by decide⟩,
      .escape ⟨Json.chr 't', by decide⟩, .plain ⟨98, by decide⟩], a.isUnicode = false := by
  have hiff := json_unescape_iff [.plain ⟨97, by decide⟩, .escape ⟨Json.chr 't', by decide⟩,
    .plain ⟨98, by decide⟩] (by simp [Json.StringChar.surrogate])
  have hescapes : ∀ a ∈ [Json.StringChar.plain ⟨97, by decide⟩, .escape ⟨Json.chr 't', by decide⟩,
      .plain ⟨98, by decide⟩], a.isUnicode = false := by simp [Json.StringChar.isUnicode]
  exact ⟨hiff.2 hescapes, hescapes⟩

/-- The escape for the letter A is unescaped to the letter and the digit 1. -/
theorem json_unescape_letter : ¬ ∀ es : List Json.StringChar, (∀ a ∈ es, a.surrogate = false) →
    unescapeUnsafe (Json.stringText es) = .ok (es.flatMap Json.StringChar.meaning) := by
  intro h
  have hletter := h [.unicode ⟨48, by decide⟩ ⟨48, by decide⟩ ⟨52, by decide⟩ ⟨49, by decide⟩]
    (by simp [Json.StringChar.surrogate, Json.codeUnit, Json.digitValue, Json.chr])
  rw [Json.unescape_stringText] at hletter
  exact absurd (Except.ok.inj hletter) (by decide +kernel)

/-- **Every range that is accepted as the contents of a string can be unescaped**: the loop looks at
characters of the range only and ends at its end, and there is no escape that it does not know. -/
theorem json_unescape_defined {s : List Byte} {n : ℕ}
    (h : Parses octets Json.Grammar.StringContents s (.success n)) :
    ∃ out, unescapeUnsafe (s.take n) = .ok out := by
  have htake := Json.ensures_unescapes s n (Json.accept_of_parses h) [] ⟨[], rfl⟩
  rwa [List.append_nil] at htake

/-- An escape at the end of a range. -/
theorem json_unescape_defined_escape :
    ∃ out, unescapeUnsafe ((bytes "\\u00e9\"").take 6) = .ok out :=
  json_unescape_defined (Json.parses_of_accept (by decide +kernel))

/-- The outcome for an accepted range of ASCII characters, a string, is well-formed UTF-8 exactly
where none of the characters of the string is an escape for a surrogate. -/
theorem json_unescape_utf8_iff {s : List Byte} {n : ℕ}
    (h : Parses octets Json.Grammar.StringContents s (.success n))
    (hascii : ∀ c ∈ s.take n, c.toNat < 128) :
    (∃ es, s.take n = Json.stringText es) ∧ ∀ es, s.take n = Json.stringText es →
      ((∃ out, unescapeUnsafe (s.take n) = .ok out ∧ Utf8.WellFormed out) ↔
        ∀ a ∈ es, a.surrogate = false) := by
  refine ⟨Json.ensures_stringText s n (Json.accept_of_parses h) hascii, fun es hes => ?_⟩
  rw [hes, Json.unescape_stringText, ← Json.wellFormed_flatMap_written]
  constructor
  · rintro ⟨out, hout, hwell⟩
    rwa [Except.ok.inj hout]
  · intro hwell
    exact ⟨_, rfl, hwell⟩

/-- An escape for a letter. -/
theorem json_unescape_utf8_iff_letter : ∃ out,
    unescapeUnsafe ((bytes "\\u00e9\"").take 6) = .ok out ∧ Utf8.WellFormed out := by
  have hescape := json_unescape_utf8_iff (s := bytes "\\u00e9\"") (n := 6)
    (Json.parses_of_accept (by decide +kernel)) (Json.of_all (by decide))
  refine (hescape.2 [.unicode ⟨48, by decide⟩ ⟨48, by decide⟩ ⟨101, by decide⟩ ⟨57, by decide⟩]
    rfl).2 ?_
  simp [Json.StringChar.surrogate, Json.codeUnit, Json.digitValue, Json.chr]

/-- The escapes for a pair of surrogates, as they are used for one character, are unescaped one by
one. -/
theorem json_unescape_surrogates : ¬ ∀ (s : List Byte) (n : ℕ),
    Parses octets Json.Grammar.StringContents s (.success n) → (∀ c ∈ s.take n, c.toNat < 128) →
      ∃ out, unescapeUnsafe (s.take n) = .ok out ∧ Utf8.WellFormed out := by
  intro h
  obtain ⟨out, hout, hwell⟩ := h (bytes "\\ud83d\\ude00\"") 12
    (Json.parses_of_accept (by decide +kernel)) (Json.of_all (by decide))
  have hbytes : unescapeUnsafe ((bytes "\\ud83d\\ude00\"").take 12) =
      .ok (0xed :: 0xa0 :: [0xbd, 100, 0xed, 0xb8, 0x80, 48]) := by decide +kernel
  rw [hbytes] at hout
  rw [← Except.ok.inj hout] at hwell
  exact Utf8.not_wellFormed_surrogate rfl (by decide) hwell

end Hittop
