/-
**The visitor that builds a JSON value**, `hittop/json/parse_visitor.h`.

`ValueParseVisitor` assigns to the value it points to.  For an array it hands on a visitor that
parses every element into a value of its own and collects them; for an object one that does the same
with the members.  These visitors take copies of the runners, so that the parser goes over what they
have parsed a second time, without them.

Main definitions:

* `Hittop.JsonValue` — `json::Value`;
* `Hittop.unescapeUnsafe` — `UnescapeUnsafe`;
* `Hittop.JsonParse`, `Hittop.JsonVisitor.operator` — the variables of the visitors, and the
  visitors;
* `Hittop.ParsesValue` — `ParseValue`.
-/

import Hittop.Json.Reading

set_option relaxedAutoImplicit false
set_option autoImplicit false

namespace Hittop

/-! ### Values -/

/-- `json::Value`.  `δ` is the type `double`; an `unordered_map` is the list of its entries, in the
order of their insertion. -/
inductive JsonValue (δ : Type)
  | null
  | boolean (b : Bool)
  | number (x : δ)
  | string (s : List Byte)
  | array (items : List (JsonValue δ))
  | object (entries : List (List Byte × JsonValue δ))

/-- `object.emplace(key, value)`: nothing is done where there is an entry for the key. -/
def emplace {δ : Type} (key : List Byte) (value : JsonValue δ)
    (entries : List (List Byte × JsonValue δ)) : List (List Byte × JsonValue δ) :=
  if key ∈ entries.map Prod.fst then entries else entries ++ [(key, value)]

/-! ### `UnescapeUnsafe` -/

/-- `HexValue`, an `unsigned long`. -/
def hexValue (x : ℤ) : ℕ :=
  ((if x ≤ ch '9' then x - ch '0'
    else if x ≥ ch 'a' then x - ch 'a' + 10
    else x - ch 'A' + 10) % 18446744073709551616).toNat

/-- The octets that are written for the value of a `\u` escape. -/
def encodeUtf8 (u16 : ℕ) : List Byte :=
  if u16 < 0x80 then [UInt8.ofNat u16]
  else if u16 < 0x800 then
    [UInt8.ofNat (0xc0 ||| ((u16 >>> 6) &&& 0x1f)), UInt8.ofNat (0x80 ||| (u16 &&& 0x3f))]
  else
    [UInt8.ofNat (0xe0 ||| ((u16 >>> 12) &&& 0x0f)), UInt8.ofNat (0x80 ||| ((u16 >>> 6) &&& 0x3f)),
      UInt8.ofNat (0x80 ||| (u16 &&& 0x3f))]

/-- The value of four hexadecimal digits, an `unsigned int`. -/
def hexValue16 (h₁ h₂ h₃ h₄ : Byte) : ℕ :=
  ((hexValue (octet h₁) <<< 12) ||| (hexValue (octet h₂) <<< 8) ||| (hexValue (octet h₃) <<< 4) |||
    hexValue (octet h₄)) % 4294967296

/-- The character that is written for one behind a backslash. -/
def unescapeChar (c : Byte) : Option Byte :=
  if octet c = ch '"' then some c
  else if octet c = ch '\\' then some c
  else if octet c = ch '/' then some c
  else if octet c = ch 'b' then some 8
  else if octet c = ch 'f' then some 12
  else if octet c = ch 'n' then some 10
  else if octet c = ch 'r' then some 13
  else if octet c = ch 't' then some 9
  else none

/-- `UnescapeUnsafe`.  It has no defined behaviour where the range ends within an escape. -/
def unescapeUnsafe : List Byte → Except Fault (List Byte)
  | [] => .ok []
  | c :: rest =>
      if octet c = ch '\\' then
        match rest with
        | [] => .error .undefined
        | e :: rest =>
            match unescapeChar e with
            | some c => (unescapeUnsafe rest).map fun out => c :: out
            | none =>
                if octet e = ch 'u' then
                  match rest with
                  -- `next` is advanced to the third digit, so that the loop goes on with the fourth
                  | h₁ :: h₂ :: h₃ :: h₄ :: rest =>
                      (unescapeUnsafe (h₄ :: rest)).map fun out =>
                        encodeUtf8 (hexValue16 h₁ h₂ h₃ h₄) ++ out
                  | _ => .error .undefined
                else .error .runtimeError
      else (unescapeUnsafe rest).map fun out => c :: out

/-! ### The visitors -/

/-- The variables that the visitors in force work on: the one behind `output_`, and the local ones
of the calls for an array, an object and a member.  A nested call has variables of its own. -/
structure JsonParse (δ : Type) where
  output : JsonValue δ
  items : List (JsonValue δ)
  object : List (List Byte × JsonValue δ)
  name : List Byte

/-- The visitors of a JSON value. -/
inductive JsonVisitor
  /-- `ValueParseVisitor`. -/
  | value
  /-- The lambda for the elements of an array. -/
  | item
  /-- The lambda for the members of an object. -/
  | member
  /-- The `FirstMatch` for the name and the value of a member. -/
  | field
  deriving DecidableEq, Repr

namespace JsonVisitor

variable {δ : Type} (stod : List Byte → Except Fault δ)

/-- A visitor that assigns to the value behind `output_`. -/
def assign (value : List Byte → Except Fault (JsonValue δ)) :
    Option (JsonParse δ → Body Byte JsonVisitor (JsonParse δ)) :=
  some fun st => .call false none
    (fun text st' => (value text).map fun v => { st' with output := v }) id st

/-- A visitor that parses a value of its own, which it hands to `use` if there is one. -/
def parseNext (use : JsonValue δ → JsonParse δ → JsonParse δ) :
    Option (JsonParse δ → Body Byte JsonVisitor (JsonParse δ)) :=
  some fun st => .call true (some .value)
    (fun _ st' => .ok (use st'.output { st' with output := st.output }))
    (fun st' => { st' with output := st.output }) { st with output := .null }

/-- What a visitor is callable with, and what it does.  `stod` is `std::stod`. -/
def operator : JsonVisitor → Grammar → Option (JsonParse δ → Body Byte JsonVisitor (JsonParse δ))
  | value, g =>
      if g = Json.Grammar.StringContents then assign fun text => (unescapeUnsafe text).map .string
      else if g = Json.Grammar.Boolean then
        assign fun text => .ok (.boolean (text.head?.map octet = some (ch 't')))
      else if g = Json.Grammar.Number then assign fun text => (stod text).map .number
      else if g = Json.Grammar.Null then assign fun _ => .ok .null
      else if g = Json.Grammar.Array then
        some fun st => .call false (some .item)
          (fun _ st' => .ok { st' with items := st.items, output := .array st'.items })
          (fun st' => { st' with items := st.items }) { st with items := [] }
      else if g = Json.Grammar.Object then
        some fun st => .call false (some .member)
          (fun _ st' => .ok { st' with object := st.object, output := .object st'.object })
          (fun st' => { st' with object := st.object }) { st with object := [] }
      else none
  | item, g =>
      if g = Json.Grammar.Value then parseNext fun v st => { st with items := st.items ++ [v] }
      else none
  | member, g =>
      if g = Json.Grammar.Property then
        some fun st => .call true (some .field) (fun _ st' => .ok { st' with name := st.name })
          (fun st' => { st' with name := st.name }) { st with name := [] }
      else none
  | field, g =>
      if g = Json.Grammar.StringContents then
        some fun st => .call true none
          (fun text st' => (unescapeUnsafe text).map fun s => { st' with name := s }) id st
      else if g = Json.Grammar.Value then
        parseNext fun v st => { st with object := emplace st.name v st.object }
      else none

end JsonVisitor

/-- The visitors of a JSON value. -/
def jsonVisitors {δ : Type} (stod : List Byte → Except Fault δ) :
    Visitors Name Cctype Byte JsonVisitor (JsonParse δ) where
  operator v g := v.operator stod g

/-- The variables at the beginning of `ParseValue`. -/
def JsonParse.init {δ : Type} : JsonParse δ := ⟨.null, [], [], []⟩

/-- `ParseValue(s)` returns the value `v` and the result `r`. -/
def ParsesValue {δ : Type} (stod : List Byte → Except Fault δ) (s : List Byte) (r : ParseResult)
    (v : JsonValue δ) : Prop :=
  ∃ st, Visits octets (jsonVisitors stod) .value Json.Grammar.Value s .init r st ∧ st.output = v

end Hittop
