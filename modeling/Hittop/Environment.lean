/-
**What the grammars are compiled against.**

Main definitions:

* `Hittop.Name.type` — the body of every metafunction;
* `Hittop.environment` — the environment of the three grammars, for a reading of the characters;
* `Hittop.octets` — the reading of an input as values `0..255`.
-/

import Hittop.Http.Grammar
import Hittop.Json.Grammar

set_option relaxedAutoImplicit false
set_option autoImplicit false

namespace Hittop

/-- `M::type`. -/
def Name.type : Name → Grammar
  | param_ => Uri.Grammar.param_type
  | userinfo_ => Uri.Grammar.userinfo_type
  | query_ => Uri.Grammar.query_type
  | fragment_ => Uri.Grammar.fragment_type
  | scheme_ => Uri.Grammar.scheme_type
  | CRLF_ => Http.Grammar.CRLF_type
  | LWS_ => Http.Grammar.LWS_type
  | comment_t => Http.Grammar.comment_type
  | field_value_ => Http.Grammar.field_value_type
  | field_name_ => Http.Grammar.field_name_type
  | message_header_ => Http.Grammar.message_header_type
  | HTTP_major_version_ => Http.Grammar.HTTP_major_version_type
  | HTTP_minor_version_ => Http.Grammar.HTTP_minor_version_type
  | extension_method_ => Http.Grammar.extension_method_type
  | Star_ => Http.Grammar.Star_type
  | Value_ => Json.Grammar.Value_type

/-- The environment of the grammars: `toInt` reads a character of the input, `inTable` is the
extent of a lookup table. -/
def environment {κ : Type} (toInt : κ → ℤ) (inTable : ℤ → Bool) : Env Name Cctype κ where
  type := Name.type
  filter := Cctype.test
  isspace := .isspace
  single m := decide (m = .Star_)
  single_type m := by cases m <;> decide
  rank _ := 0
  rank_type m hm m' hm' := by
    obtain rfl : m = .Star_ := by simpa using hm
    simp [Name.type, Http.Grammar.Star_type, Rule.traitRefs] at hm'
  toInt := toInt
  inTable := inTable

/-- Whether an index lies inside a lookup table of 256 entries. -/
def inLookup (i : ℤ) : Bool := decide (0 ≤ i ∧ i < 256)

/-- The value of a character, `0..255`. -/
def octet (c : Byte) : ℤ := c.toNat

theorem octet_injective {a b : Byte} (h : octet a = octet b) : a = b := by
  unfold octet at h
  exact UInt8.toNat_inj.1 (Int.ofNat.inj h)

/-- Characters read as values `0..255`. -/
def octets : Env Name Cctype Byte := environment (fun c => (c.toNat : ℤ)) inLookup

theorem octets_inTable (c : Byte) : octets.inTable (octets.toInt c) = true := by
  have hlt : c.toNat < 256 := c.toNat_lt
  simp only [octets, environment, inLookup, decide_eq_true_eq]
  omega

end Hittop
