/-
**JSON texts**, as json.org draws them.

A layout is a JSON value together with everything a text leaves open: how its strings and numbers
are spelled, and what white space stands where white space may stand.  The characters of the text
are those of ASCII that can be printed.

Main definitions:

* `Hittop.Json.StringChar`, `Hittop.Json.Numeral` — a character of a string, and a number;
* `Hittop.Json.Layout`, `Hittop.Json.Items`, `Hittop.Json.Members` — a value, the elements of an
  array and the members of an object, with their white space;
* `Hittop.Json.Layout.text` — the text;
* `Hittop.Json.Layout.tight` — nothing stands between the brackets of an empty array or object.
-/

import Hittop.Names

set_option relaxedAutoImplicit false
set_option autoImplicit false

namespace Hittop.Json

/-- The octet of a character below 256. -/
def chr (c : Char) : Byte := UInt8.ofNat c.toNat

/-! ### Leaves -/

/-- White space: spaces, tabs, line feeds and carriage returns. -/
abbrev Blanks := {w : List Byte // ∀ c ∈ w, c ∈ [chr ' ', chr '\t', chr '\n', chr '\x0d']}

abbrev Digit := {c : Byte // (chr '0').toNat ≤ c.toNat ∧ c.toNat ≤ (chr '9').toNat}

/-- `onenine` -/
abbrev OneNine := {c : Byte // (chr '1').toNat ≤ c.toNat ∧ c.toNat ≤ (chr '9').toNat}

abbrev HexDigit := {c : Byte // (chr '0').toNat ≤ c.toNat ∧ c.toNat ≤ (chr '9').toNat ∨
  (chr 'A').toNat ≤ c.toNat ∧ c.toNat ≤ (chr 'F').toNat ∨
  (chr 'a').toNat ≤ c.toNat ∧ c.toNat ≤ (chr 'f').toNat}

/-- An ASCII character that stands for itself in a string. -/
abbrev PlainChar :=
  {c : Byte // (chr ' ').toNat ≤ c.toNat ∧ c.toNat < 127 ∧ c ≠ chr '"' ∧ c ≠ chr '\\'}

/-- What may stand behind a backslash. -/
abbrev EscapeChar := {c : Byte // c ∈ bytes "\"\\/bfnrt"}

/-- A character of a string. -/
inductive StringChar
  | plain (c : PlainChar)
  | escape (c : EscapeChar)
  | unicode (h₁ h₂ h₃ h₄ : HexDigit)

def StringChar.text : StringChar → List Byte
  | plain c => [c.val]
  | escape c => [chr '\\', c.val]
  | unicode h₁ h₂ h₃ h₄ => [chr '\\', chr 'u', h₁.val, h₂.val, h₃.val, h₄.val]

/-- The digits of an integer. -/
inductive IntDigits
  | zero
  | digits (first : OneNine) (rest : List Digit)

def IntDigits.text : IntDigits → List Byte
  | zero => [chr '0']
  | digits first rest => first.val :: rest.map Subtype.val

/-- One digit or more. -/
structure Digits where
  first : Digit
  rest : List Digit

def Digits.text (d : Digits) : List Byte := d.first.val :: d.rest.map Subtype.val

structure Exponent where
  capital : Bool
  /-- A plus or a minus sign. -/
  sign : Option Bool
  digits : Digits

def Exponent.text (e : Exponent) : List Byte :=
  [if e.capital then chr 'E' else chr 'e'] ++
    (match e.sign with
      | none => []
      | some true => [chr '+']
      | some false => [chr '-']) ++ e.digits.text

/-- A number. -/
structure Numeral where
  minus : Bool
  int : IntDigits
  fraction : Option Digits
  exponent : Option Exponent

def Numeral.text (n : Numeral) : List Byte :=
  (if n.minus then [chr '-'] else []) ++ (n.int.text ++
    ((match n.fraction with
      | none => []
      | some d => chr '.' :: d.text) ++
    match n.exponent with
      | none => []
      | some e => e.text))

/-- A string without its quotes. -/
def stringText (s : List StringChar) : List Byte := s.flatMap StringChar.text

/-! ### Values with their white space -/

mutual

/-- A value. -/
inductive Layout
  | string (s : List StringChar)
  | number (n : Numeral)
  | emptyObject (w : Blanks)
  | object (members : Members)
  | emptyArray (w : Blanks)
  | array (items : Items)
  | true
  | false
  | null

/-- The elements of an array, separated by commas. -/
inductive Items
  | last (before : Blanks) (item : Layout) (after : Blanks)
  | cons (before : Blanks) (item : Layout) (after : Blanks) (rest : Items)

/-- The members of an object, separated by commas. -/
inductive Members
  | last (before : Blanks) (name : List StringChar) (between : Blanks)
      (beforeValue : Blanks) (value : Layout) (after : Blanks)
  | cons (before : Blanks) (name : List StringChar) (between : Blanks)
      (beforeValue : Blanks) (value : Layout) (after : Blanks) (rest : Members)

end

mutual

def Layout.text : Layout → List Byte
  | .string s => [chr '"'] ++ (stringText s ++ [chr '"'])
  | .number n => n.text
  | .emptyObject w => [chr '{'] ++ (w.val ++ [chr '}'])
  | .object members => [chr '{'] ++ (members.text ++ [chr '}'])
  | .emptyArray w => [chr '['] ++ (w.val ++ [chr ']'])
  | .array items => [chr '['] ++ (items.text ++ [chr ']'])
  | .true => bytes "true"
  | .false => bytes "false"
  | .null => bytes "null"

def Items.text : Items → List Byte
  | .last before item after => before.val ++ (item.text ++ after.val)
  | .cons before item after rest =>
      before.val ++ (item.text ++ after.val) ++ ([chr ','] ++ rest.text)

def Members.text : Members → List Byte
  | .last before name between beforeValue value after =>
      before.val ++ ([chr '"'] ++ (stringText name ++ [chr '"']) ++ between.val) ++
        ([chr ':'] ++ (beforeValue.val ++ (value.text ++ after.val)))
  | .cons before name between beforeValue value after rest =>
      before.val ++ ([chr '"'] ++ (stringText name ++ [chr '"']) ++ between.val) ++
        ([chr ':'] ++ (beforeValue.val ++ (value.text ++ after.val))) ++ ([chr ','] ++ rest.text)

end

/-- The value is an array or an object. -/
def Layout.composite : Layout → Bool
  | .emptyObject _ | .object _ | .emptyArray _ | .array _ => Bool.true
  | _ => Bool.false

mutual

/-- Nothing stands between the brackets of an empty array or object. -/
def Layout.tight : Layout → Bool
  | .emptyObject w | .emptyArray w => w.val.isEmpty
  | .object members => members.tight
  | .array items => items.tight
  | _ => Bool.true

def Items.tight : Items → Bool
  | .last _ item _ => item.tight
  | .cons _ item _ rest => item.tight && rest.tight

def Members.tight : Members → Bool
  | .last _ _ _ _ value _ => value.tight
  | .cons _ _ _ _ value _ rest => value.tight && rest.tight

end

end Hittop.Json
