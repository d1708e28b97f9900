/-
**The names of the grammars: character functions and metafunctions.**

The URI, HTTP and JSON grammars use six functions of `<cctype>`, and a few rules that are declared
as metafunctions so that a `ForwardRef` can refer to them.  Both are enumerations here.

Main definitions:

* `Hittop.Cctype`, `Hittop.Cctype.test` — the functions of `<cctype>`, in the `"C"` locale;
* `Hittop.Name` — the metafunctions behind the forward references;
* `Hittop.ch`, `Hittop.Byte`, `Hittop.bytes` — characters, octets and texts.
-/

import Hittop.Rule

set_option relaxedAutoImplicit false
set_option autoImplicit false

namespace Hittop

/-! ### Characters -/

/-- The octets of an input. -/
abbrev Byte := UInt8

/-- A character literal of the source, as an `int`. -/
def ch (c : Char) : ℤ := c.toNat

/-- The octets of a text whose characters are below 256. -/
def bytes (text : String) : List Byte := text.toList.map fun c => UInt8.ofNat c.toNat

/-! ### Character functions -/

/-- The functions of `<cctype>` the grammars use. -/
inductive Cctype
  | isalnum
  | isalpha
  | iscntrl
  | isdigit
  | isspace
  | isxdigit
  deriving DecidableEq, Repr

/-- Whether a value lies between two characters. -/
def charRange (first last : Char) (c : ℤ) : Bool := decide (ch first ≤ c ∧ c ≤ ch last)

/-- A function of `<cctype>` on the value of an `int`, in the `"C"` locale. -/
def Cctype.test : Cctype → ℤ → Bool
  | isdigit, c => charRange '0' '9' c
  | isalpha, c => charRange 'A' 'Z' c || charRange 'a' 'z' c
  | isalnum, c => charRange '0' '9' c || charRange 'A' 'Z' c || charRange 'a' 'z' c
  | isxdigit, c => charRange '0' '9' c || charRange 'A' 'F' c || charRange 'a' 'f' c
  | iscntrl, c => decide (0 ≤ c ∧ c < 32) || decide (c = 127)
  | isspace, c => decide (c = ch ' ') || decide (9 ≤ c ∧ c ≤ 13)

namespace Cctype

theorem isdigit_iff {c : ℤ} : isdigit.test c = true ↔ 48 ≤ c ∧ c ≤ 57 := by
  simp only [test, charRange, decide_eq_true_eq]
  rfl

theorem isspace_iff {c : ℤ} : isspace.test c = true ↔ c = 32 ∨ 9 ≤ c ∧ c ≤ 13 := by
  simp only [test, Bool.or_eq_true, decide_eq_true_eq]
  rfl

theorem isalpha_iff {c : ℤ} : isalpha.test c = true ↔ 65 ≤ c ∧ c ≤ 90 ∨ 97 ≤ c ∧ c ≤ 122 := by
  simp only [test, charRange, Bool.or_eq_true, decide_eq_true_eq]
  rfl

theorem isxdigit_iff {c : ℤ} :
    isxdigit.test c = true ↔ (48 ≤ c ∧ c ≤ 57 ∨ 65 ≤ c ∧ c ≤ 70) ∨ 97 ≤ c ∧ c ≤ 102 := by
  simp only [test, charRange, Bool.or_eq_true, decide_eq_true_eq]
  rfl

theorem iscntrl_iff {c : ℤ} : iscntrl.test c = true ↔ (0 ≤ c ∧ c < 32) ∨ c = 127 := by
  simp [test]

end Cctype

/-! ### Metafunctions -/

/-- The metafunctions that name a rule for `ForwardRef`. -/
inductive Name
  -- uri/grammar.h
  | param_
  | userinfo_
  | query_
  | fragment_
  | scheme_
  -- http/grammar.h
  | CRLF_
  | LWS_
  | comment_t
  | field_value_
  | field_name_
  | message_header_
  | HTTP_major_version_
  | HTTP_minor_version_
  | extension_method_
  | Star_
  -- json/grammar.h
  | Value_
  deriving DecidableEq, Repr

/-- The rules of the grammars. -/
abbrev Grammar := Rule Name Cctype

end Hittop
