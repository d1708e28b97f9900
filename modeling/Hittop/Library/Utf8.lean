/-
**Well-formed UTF-8.**

A sequence of octets is well-formed UTF-8 where it is the encoding of a sequence of Unicode scalar
values.  No encoding of a scalar value is the beginning of another one, so that whether a sequence
is well-formed can be told from the front, one character at a time.

Main definitions:

* `Utf8.WellFormed` — the well-formed sequences.

Main results:

* `Utf8.wellFormed_append_char` — a character in front makes no difference;
* `Utf8.not_wellFormed_surrogate` — nothing well-formed begins like the code of a surrogate.
-/

import Mathlib.Data.List.Basic
import Mathlib.Tactic.Common
import Mathlib.Tactic.SplitIfs

set_option relaxedAutoImplicit false
set_option autoImplicit false

namespace Utf8

open String (utf8EncodeChar)

variable {x y : List UInt8} {c d : Char}

/-- The encoding of a sequence of Unicode scalar values. -/
def WellFormed (x : List UInt8) : Prop := ∃ cs : List Char, x = cs.flatMap utf8EncodeChar

theorem wellFormed_nil : WellFormed [] := ⟨[], rfl⟩

theorem wellFormed_char (c : Char) : WellFormed (utf8EncodeChar c) :=
  ⟨[c], by rw [List.flatMap_singleton]⟩

theorem WellFormed.append (hx : WellFormed x) (hy : WellFormed y) : WellFormed (x ++ y) := by
  obtain ⟨cs, rfl⟩ := hx
  obtain ⟨ds, rfl⟩ := hy
  exact ⟨cs ++ ds, by rw [List.flatMap_append]⟩

/-- The first character of a text can be told from its octets. -/
theorem char_append_cancel (h : utf8EncodeChar c ++ x = utf8EncodeChar d ++ y) : c = d ∧ x = y := by
  have hdecode (c : Char) (x : List UInt8) :
      ByteArray.utf8DecodeChar? (utf8EncodeChar c ++ x).toByteArray 0 = some c := by
    rw [List.toByteArray_append]
    exact ByteArray.utf8DecodeChar?_utf8EncodeChar_append
  have hchar : some c = some d := by rw [← hdecode c x, h, hdecode]
  obtain rfl : c = d := Option.some.inj hchar
  exact ⟨rfl, List.append_cancel_left h⟩

/-- **A character in front** makes no difference. -/
theorem wellFormed_char_append : WellFormed (utf8EncodeChar c ++ x) ↔ WellFormed x := by
  refine ⟨fun ⟨cs, h⟩ => ?_, (wellFormed_char c).append⟩
  cases cs with
  | nil =>
      have hlength := congrArg List.length h
      have hpos := c.utf8Size_pos
      rw [List.length_append, String.length_utf8EncodeChar, List.flatMap_nil,
        List.length_nil] at hlength
      omega
  | cons d cs =>
      rw [List.flatMap_cons] at h
      exact ⟨cs, (char_append_cancel h).2⟩

theorem toNat_ofNat {n : ℕ} (h : n.isValidChar) : (Char.ofNat n).val.toNat = n := by
  rw [Char.ofNat, dif_pos h]
  rfl

/-- Octets below 128 are characters of their own. -/
theorem encode_ascii {a : UInt8} (ha : a.toNat < 128) :
    utf8EncodeChar (Char.ofNat a.toNat) = [a] := by
  have hval : (Char.ofNat a.toNat).val.toNat = a.toNat := toNat_ofNat (.inl (by omega))
  simp only [utf8EncodeChar, hval]
  rw [if_pos (by omega), UInt8.ofNat_toNat]

theorem wellFormed_cons_ascii {a : UInt8} (ha : a.toNat < 128) :
    WellFormed (a :: x) ↔ WellFormed x := by
  have hchar := wellFormed_char_append (c := Char.ofNat a.toNat) (x := x)
  rwa [encode_ascii ha, List.singleton_append] at hchar

/-- **The code of a surrogate** would begin with the octet 237 and one from 160 on. -/
theorem not_wellFormed_surrogate {a b : UInt8} (ha : a.toNat = 0xed) (hb : 0xa0 ≤ b.toNat) :
    ¬ WellFormed (a :: b :: x) := by
  rintro ⟨cs, h⟩
  cases cs with
  | nil => cases h
  | cons c cs =>
      have hvalid := c.valid
      have hlow : b.toNat < 256 := b.toNat_lt
      rw [List.flatMap_cons] at h
      simp only [utf8EncodeChar] at h
      split_ifs at h with h₁ h₂ h₃
      all_goals
        simp only [List.cons_append, List.nil_append, List.cons.injEq] at h
        obtain ⟨rfl, h⟩ := h
        rw [UInt8.toNat_ofNat'] at ha
      · omega
      · omega
      · obtain ⟨rfl, -⟩ := h
        rw [UInt8.toNat_ofNat'] at hb
        have hscalar : c.val.toNat < 0xd800 ∨ 0xdfff < c.val.toNat ∧ c.val.toNat < 0x110000 :=
          hvalid
        omega
      · omega

end Utf8
