/-
**The visitor that records the parts of a URI**, `hittop/uri/uri_parse_visitor.h`.

A `BasicUri` keeps the parts of a URI as ranges of the text it was parsed from, each of them
optional. `UriFieldParseVisitor` holds a pointer to one and assigns to it whenever a rule it is
callable with has succeeded, whatever becomes of the rules around that one.

Main definitions:

* `Hittop.Uri` — `BasicUri`, with the assignments;
* `Hittop.stoul` — `std::stoul`;
* `Hittop.UriVisitor`, `Hittop.UriVisitor.operator` — `MakeUriParseVisitor`, `UriFieldParseVisitor`
  and the visitors they hand on;
* `Hittop.uriVisitors` — these visitors, working on one `BasicUri`.
-/

import Hittop.Environment
import Hittop.Recording

set_option relaxedAutoImplicit false
set_option autoImplicit false

namespace Hittop

/-! ### `BasicUri` -/

/-- `BasicUri`.  The query parameters are left out: nothing fills them. -/
structure Uri (κ : Type) where
  uri : Option (List κ) := none
  scheme : Option (List κ) := none
  user : Option (List κ) := none
  host : Option (List κ) := none
  port : Option ℕ := none
  path : Option (List κ) := none
  query : Option (List κ) := none
  fragment : Option (List κ) := none
  path_segments : Option (List (List κ)) := none
  deriving DecidableEq, Repr

/-- The number of values of an `unsigned`, two to the power of 32. -/
def unsignedSize : ℕ := 4294967296

/-- The number of values of an `unsigned long`, two to the power of 64. -/
def unsignedLongSize : ℕ := 18446744073709551616

namespace Uri

variable {κ : Type}

def assign (text : List κ) (u : Uri κ) : Uri κ := { u with uri := some text }
def assignScheme (text : List κ) (u : Uri κ) : Uri κ := { u with scheme := some text }
def assignUser (text : List κ) (u : Uri κ) : Uri κ := { u with user := some text }
def resetUser (u : Uri κ) : Uri κ := { u with user := none }
def assignHost (text : List κ) (u : Uri κ) : Uri κ := { u with host := some text }

/-- `assign_port(unsigned p)`: the argument is converted to `unsigned`. -/
def assignPort (p : ℕ) (u : Uri κ) : Uri κ := { u with port := some (p % unsignedSize) }

def assignPath (text : List κ) (u : Uri κ) : Uri κ := { u with path := some text }
def assignQuery (text : List κ) (u : Uri κ) : Uri κ := { u with query := some text }
def assignFragment (text : List κ) (u : Uri κ) : Uri κ := { u with fragment := some text }

/-- `mutable_path_segments()` creates the sequence when there is none. -/
def mutablePathSegments (u : Uri κ) : Uri κ :=
  { u with path_segments := some (u.path_segments.getD []) }

/-- `segments->emplace_back(...)`, where `segments` is what `mutable_path_segments()` returned. -/
def emplaceSegment (text : List κ) (u : Uri κ) : Uri κ :=
  { u with path_segments := u.path_segments.map (· ++ [text]) }

end Uri

/-! ### `std::stoul` -/

/-- The value of a string of decimal digits, after the value of those before it. -/
def decimalFrom : ℕ → List ℤ → ℕ
  | acc, [] => acc
  | acc, d :: ds => decimalFrom (10 * acc + (d - ch '0').toNat) ds

/-- The value of a string of decimal digits. -/
def decimal (digits : List ℤ) : ℕ := decimalFrom 0 digits

/-- `std::stoul`: leading white space and a sign are allowed, what follows the digits is ignored,
and a negative number is negated as an `unsigned long`. -/
def stoul (text : List ℤ) : Except Fault ℕ :=
  let rest := text.dropWhile (Cctype.test .isspace)
  let negative := decide (rest.head? = some (ch '-'))
  let unsigned := if negative || decide (rest.head? = some (ch '+')) then rest.tail else rest
  let digits := unsigned.takeWhile (Cctype.test .isdigit)
  if digits = [] then .error .invalidArgument
  else if unsignedLongSize ≤ decimal digits then .error .outOfRange
  else .ok (if negative then (unsignedLongSize - decimal digits) % unsignedLongSize
    else decimal digits)

/-! ### The visitors -/

/-- The visitors of a URI. -/
inductive UriVisitor
  /-- The lambda that `MakeUriParseVisitor` returns. -/
  | make
  /-- `UriFieldParseVisitor`. -/
  | field
  /-- The lambda for the `userinfo` of a `userinfo_at`. -/
  | userinfo
  /-- The lambda for the segments of a path. -/
  | segment
  deriving DecidableEq, Repr

section

variable {κ ν σ : Type}

/-- A visitor that calls its runner once, with `args`, and works on the URI at `p`. -/
def Pointer.visit (p : Pointer σ (Uri κ)) (args : Option ν) (before : Uri κ → Uri κ)
    (accepted : List κ → Uri κ → Except Fault (Uri κ)) (failed : Uri κ → Uri κ) :
    Option (σ → Body κ ν σ) :=
  some fun st => .call false args (fun text => p.tryModify (accepted text)) (p.modify failed)
    (p.modify before st)

/-- A visitor that assigns a part. -/
def Pointer.visitPart (p : Pointer σ (Uri κ)) (part : List κ → Uri κ → Uri κ) :
    Option (σ → Body κ ν σ) :=
  p.visit none id (fun text u => .ok (part text u)) id

namespace UriVisitor

variable (toInt : κ → ℤ) (e : UriVisitor → ν) (p : Pointer σ (Uri κ))

/-- `visit_path`. -/
def visitPath : Option (σ → Body κ ν σ) :=
  p.visit (some (e .segment)) Uri.mutablePathSegments (fun text u => .ok (u.assignPath text)) id

/-- What a visitor is callable with and what it does, for the URI at `p`.  `e` are the visitors
among those of the whole run, `toInt` the value of a character. -/
def operator : UriVisitor → Grammar → Option (σ → Body κ ν σ)
  | make, g =>
      if g = Uri.Grammar.URI_reference then
        p.visit (some (e .field)) id (fun text u => .ok (u.assign text)) id
      else none
  | field, g =>
      if g = Uri.Grammar.scheme then p.visitPart Uri.assignScheme
      else if g = Uri.Grammar.userinfo_at then
        p.visit (some (e .userinfo)) id (fun _ u => .ok u) Uri.resetUser
      else if g = Uri.Grammar.host then p.visitPart Uri.assignHost
      else if g = Uri.Grammar.port then
        p.visit none id (fun text u => (stoul (text.map toInt)).map fun n => u.assignPort n) id
      else if g = Uri.Grammar.abs_path ∨ g = Uri.Grammar.rel_path then visitPath e p
      else if g = Uri.Grammar.query then p.visitPart Uri.assignQuery
      else if g = Uri.Grammar.fragment then p.visitPart Uri.assignFragment
      else none
  | userinfo, g => if g = Uri.Grammar.userinfo then p.visitPart Uri.assignUser else none
  | segment, g => if g = Uri.Grammar.segment then p.visitPart Uri.emplaceSegment else none

end UriVisitor

/-- The visitors of a URI, working on one. -/
def uriVisitors (toInt : κ → ℤ) : Visitors Name Cctype κ UriVisitor (Uri κ) where
  operator v g := v.operator toInt id .self g

end

end Hittop
