/-
**The visitor that records a request**, `hittop/http/request_parse_visitor.h`.

`RequestParseVisitor` fills a `BasicRequest` while the head of a request is parsed.  It hands the
target on to the visitor of a URI, the version numbers to `IntegerParseVisitor`, and each header to
a pair of lambdas that share a local variable for the name of the field.

Main definitions:

* `Hittop.Request` — `BasicRequest`;
* `Hittop.integerParse` — what `IntegerParseVisitor` makes of a text;
* `Hittop.RequestVisitor`, `Hittop.RequestVisitor.operator` — `RequestParseVisitor` and the visitors
  it hands on;
* `Hittop.requestVisitors` — these visitors, working on one request.
-/

import Hittop.Uri.Visitor

set_option relaxedAutoImplicit false
set_option autoImplicit false

namespace Hittop

/-! ### `BasicRequest` -/

inductive HttpMethod
  | UNKNOWN
  | CONNECT
  | DELETE
  | GET
  | HEAD
  | POST
  | PUT
  | TRACE
  deriving DecidableEq, Repr

/-- `boost::variant<HttpMethod, Range>`. -/
inductive GenericMethod (κ : Type)
  | http (m : HttpMethod)
  | extension (name : List κ)
  deriving DecidableEq, Repr

structure HttpVersion where
  major : ℤ := 1
  minor : ℤ := 1
  deriving DecidableEq, Repr

/-- `BasicHeader`. -/
structure Header (κ : Type) where
  name : List κ
  value : List κ
  deriving DecidableEq, Repr

/-- `BasicRequest`.  The range of the whole request is left out: the visitor does not assign it. -/
structure Request (κ : Type) where
  method : GenericMethod κ := .http .UNKNOWN
  uri : Uri κ := {}
  version : HttpVersion := {}
  headers : List (Header κ) := []
  deriving DecidableEq, Repr

/-- What the visitors of a request work on: the request, and the variable `name` of the call for the
header that is being parsed. -/
structure RequestParse (κ : Type) where
  request : Request κ := {}
  name : List κ := []
  deriving DecidableEq, Repr

namespace RequestParse

variable {κ : Type}

def setMajorVersion (major : ℤ) (st : RequestParse κ) : RequestParse κ :=
  { st with request.version.major := major }

def setMinorVersion (minor : ℤ) (st : RequestParse κ) : RequestParse κ :=
  { st with request.version.minor := minor }

def setHttpMethod (m : HttpMethod) (st : RequestParse κ) : RequestParse κ :=
  { st with request.method := .http m }

/-- `mutable_headers()->emplace_back(std::move(name), std::move(value))`. -/
def emplaceHeader (value : List κ) (st : RequestParse κ) : RequestParse κ :=
  { st with request.headers := st.request.headers ++ [⟨st.name, value⟩] }

/-- `mutable_uri()`. -/
def mutableUri : Pointer (RequestParse κ) (Uri κ) where
  get st := st.request.uri
  set u st := { st with request.uri := u }
  get_set _ _ := rfl
  set_set _ _ _ := rfl
  set_get _ := rfl

end RequestParse

/-! ### `IntegerParseVisitor` -/

/-- The largest `int`. -/
def intMax : ℤ := 2147483647

/-- A result of signed arithmetic, wrapped around in two's complement. -/
def wrapSigned (max n : ℤ) : ℤ := (n + (max + 1)) % (2 * (max + 1)) - (max + 1)

/-- The loop of `IntegerParseVisitor` in base 10: `first` on the first character, `sign` and `value`
as far as they are known.  The callback is called with the result, or not at all. -/
def integerParseLoop (max : ℤ) : Bool → ℤ → ℤ → List ℤ → Option ℤ
  | _, sign, value, [] => some (wrapSigned max (value * sign))
  | first, sign, value, d :: rest =>
      if Cctype.test .isdigit d then
        if max / 10 < value then none
        else
          integerParseLoop max false sign
            (wrapSigned max (wrapSigned max (value * 10) + (d - ch '0'))) rest
      else if d = ch '-' && first then integerParseLoop max false (-1) value rest
      else some (wrapSigned max (value * sign))

/-- What `IntegerParseVisitor<F, Integer, 10>` calls its callback with, for a type with this largest
value. -/
def integerParse (max : ℤ) (text : List ℤ) : Option ℤ := integerParseLoop max true 1 0 text

/-! ### `RequestParseVisitor` -/

/-- The `switch` on the first letter of a method. -/
def httpMethodOf : List ℤ → Option HttpMethod
  | [] => none
  | first :: rest =>
      if first = ch 'C' then some .CONNECT
      else if first = ch 'D' then some .DELETE
      else if first = ch 'G' then some .GET
      else if first = ch 'H' then some .HEAD
      else if first = ch 'P' then
        match rest with
        | [] => none
        | second :: _ => if second = ch 'U' then some .PUT else some .POST
      else if first = ch 'T' then some .TRACE
      else none

/-- The visitors of a request. -/
inductive RequestVisitor
  /-- `RequestParseVisitor`. -/
  | request
  /-- The visitors of its target. -/
  | uri (v : UriVisitor)
  /-- `IntegerParseVisitor`, with `set_major_version`. -/
  | majorVersion
  /-- `IntegerParseVisitor`, with `set_minor_version`. -/
  | minorVersion
  /-- The two lambdas for the parts of a header. -/
  | header
  deriving DecidableEq, Repr

section

variable {κ : Type} (toInt : κ → ℤ)

/-- A visitor that calls its runner once, with `args`. -/
def RequestVisitor.visit (args : Option RequestVisitor)
    (before : RequestParse κ → RequestParse κ)
    (accepted : List κ → RequestParse κ → RequestParse κ) :
    Option (RequestParse κ → Body κ RequestVisitor (RequestParse κ)) :=
  some fun st => .call false args (fun text st => .ok (accepted text st)) id (before st)

/-- What a visitor is callable with and what it does. -/
def RequestVisitor.operator : RequestVisitor → Grammar →
    Option (RequestParse κ → Body κ RequestVisitor (RequestParse κ))
  | request, g =>
      if g = Http.Grammar.HTTP_major_version then visit (some majorVersion) id fun _ st => st
      else if g = Http.Grammar.HTTP_minor_version then visit (some minorVersion) id fun _ st => st
      else if g = Http.Grammar.Request_URI then
        visit (some (uri .field)) id fun text => RequestParse.mutableUri.modify (·.assign text)
      else if g = Http.Grammar.HttpMethod then
        visit none id fun text st => match httpMethodOf (text.map toInt) with
          | some m => st.setHttpMethod m
          | none => st
      else if g = Http.Grammar.message_header then
        visit (some header) ({ · with name := [] }) fun _ st => st
      else none
  | uri v, g => v.operator toInt uri RequestParse.mutableUri g
  | majorVersion, _ =>
      visit none id fun text st => match integerParse intMax (text.map toInt) with
        | some n => st.setMajorVersion n
        | none => st
  | minorVersion, _ =>
      visit none id fun text st => match integerParse intMax (text.map toInt) with
        | some n => st.setMinorVersion n
        | none => st
  | header, g =>
      if g = Http.Grammar.field_name then visit none id fun text st => { st with name := text }
      else if g = Http.Grammar.field_value then visit none id fun text st => st.emplaceHeader text
      else none

/-- The visitors of a request, working on one. -/
def requestVisitors : Visitors Name Cctype κ RequestVisitor (RequestParse κ) where
  operator v g := v.operator toInt g

end

end Hittop
