/-
**What the visitor of a request records**, rule by rule.

Main definitions:

* `Hittop.recordRequest` — the parse of the head of a request, and those of the rules below it.

Main results:

* `Hittop.meaning_request` — `ParseRequest` does what is said here.
-/

import Hittop.Http.Visitor
import Hittop.Uri.Recording

set_option relaxedAutoImplicit false
set_option autoImplicit false

namespace Hittop

open Uri.Grammar (lit)
open Http.Grammar Meaning

variable {κ : Type}

/-! ### The recording, from the leaves up -/

section Record

variable (toInt : κ → ℤ)

/-- A rule that the visitor is called with nowhere. -/
def skipped (g : Grammar) : Meaning κ (RequestParse κ) := lift (recognizer toInt g)

def recordMajorVersion (text : List κ) (st : RequestParse κ) : RequestParse κ :=
  match integerParse intMax (text.map toInt) with
  | some n => st.setMajorVersion n
  | none => st

def recordMinorVersion (text : List κ) (st : RequestParse κ) : RequestParse κ :=
  match integerParse intMax (text.map toInt) with
  | some n => st.setMinorVersion n
  | none => st

def recordHttpMethod (text : List κ) (st : RequestParse κ) : RequestParse κ :=
  match httpMethodOf (text.map toInt) with
  | some m => st.setHttpMethod m
  | none => st

def recordMethod : Meaning κ (RequestParse κ) :=
  (record (recognizer toInt Http.Grammar.HttpMethod) (recordHttpMethod toInt)).alt
    (skipped toInt extension_method)

def recordTarget : Meaning κ (RequestParse κ) :=
  ((recordRequestURI toInt alt).through RequestParse.mutableUri).finish
    (fun text st => .ok (RequestParse.mutableUri.modify (·.assign text) st)) id

def recordVersion : Meaning κ (RequestParse κ) :=
  (skipped toInt HTTP_slash).seq
    ((record (recognizer toInt HTTP_major_version) (recordMajorVersion toInt)).seq
      ((skipped toInt (lit '.')).seq
        (record (recognizer toInt HTTP_minor_version) (recordMinorVersion toInt))))

def recordRequestLine : Meaning κ (RequestParse κ) :=
  (recordMethod toInt).seq ((skipped toInt SP).seq ((recordTarget toInt).seq
    ((skipped toInt SP).seq ((recordVersion toInt).seq (skipped toInt CRLF)))))

/-- A header: the name of the field is kept until its value is known. -/
def recordHeader : Meaning κ (RequestParse κ) :=
  (((record (recognizer toInt field_name) fun text st => { st with name := text }).seq
    ((skipped toInt (.repeat_ LWS)).seq ((skipped toInt (lit ':')).seq
      ((skipped toInt (.repeat_ LWS)).seq
        (record (recognizer toInt field_value) RequestParse.emplaceHeader).opt)))).after
    ({ · with name := [] }))

/-- A header with the end of its line. -/
def recordHeaderLine : Meaning κ (RequestParse κ) :=
  (recordHeader toInt).seq ((skipped toInt (.repeat_ LWS)).seq (skipped toInt CRLF))

/-- `Request` -/
def recordRequest : Meaning κ (RequestParse κ) :=
  (recordRequestLine toInt).seq ((recordHeaderLine toInt).loop.seq (skipped toInt CRLF))

end Record

/-! ### The parser records this -/

section Parser

variable (toInt : κ → ℤ)

/-- The forward references under which the visitors are called with nothing. -/
def plainName : Name → Bool
  | .CRLF_ | .LWS_ | .extension_method_ | .Star_ => true
  | _ => false

variable {toInt} in
theorem meaning_skipped {v : RequestVisitor} (g : Grammar)
    (hnames : ∀ m, plainName m = true → m.settled = true ∧
      (reading toInt).quiet (fun g => (v.operator toInt g).isNone)
        (fun m' => plainName m' && m.below m') 64 m.type = true)
    (hg : (reading toInt).Regular g) (hself : (v.operator toInt g).isNone = true)
    (hquiet : (reading toInt).quiet (fun g => (v.operator toInt g).isNone) plainName 64 g = true) :
    meaning (reading toInt) (requestVisitors toInt) (some v) g = skipped toInt g :=
  meaning_some_recognizer (q := fun g => (v.operator toInt g).isNone) (r := plainName)
    (fun _ hg => Option.isNone_iff_eq_none.1 hg) hnames hg hself hquiet

theorem request_plainName (m : Name) (h : plainName m = true) : m.settled = true ∧
    (reading toInt).quiet (fun g => (RequestVisitor.request.operator toInt g).isNone)
      (fun m' => plainName m' && m.below m') 64 m.type = true := by
  cases m <;> first | exact ⟨rfl, rfl⟩ | cases h

theorem header_plainName (m : Name) (h : plainName m = true) : m.settled = true ∧
    (reading toInt).quiet (fun g => (RequestVisitor.header.operator toInt g).isNone)
      (fun m' => plainName m' && m.below m') 64 m.type = true := by
  cases m <;> first | exact ⟨rfl, rfl⟩ | cases h

variable {toInt}

/-- A visitor that calls its runner once. -/
theorem meaning_visit {v : RequestVisitor} {g : Grammar} (args : Option RequestVisitor)
    (before : RequestParse κ → RequestParse κ)
    (accepted : List κ → RequestParse κ → RequestParse κ)
    (h : v.operator toInt g = RequestVisitor.visit args before accepted) :
    meaning (reading toInt) (requestVisitors toInt) (some v) g =
      ((meaning (reading toInt) (requestVisitors toInt) args g).finish
        (fun text st => .ok (accepted text st)) id).after before := by
  have hop : (requestVisitors toInt).operator v g = some fun st =>
      .call false args (fun text st => .ok (accepted text st)) id (before st) := h
  funext s st
  exact meaning_call hop s st

/-- A rule whose text the visitor keeps. -/
theorem meaning_kept {v : RequestVisitor} {g : Grammar}
    (accepted : List κ → RequestParse κ → RequestParse κ)
    (h : v.operator toInt g = RequestVisitor.visit none id accepted)
    (hnone : meaning (reading toInt) (requestVisitors toInt) none g = lift (recognizer toInt g)) :
    meaning (reading toInt) (requestVisitors toInt) (some v) g =
      record (recognizer toInt g) accepted := by
  rw [← finish_lift, ← hnone]
  exact meaning_visit none id accepted h

variable (hlookup : InLookup toInt)
include hlookup

theorem meaning_majorVersion :
    meaning (reading toInt) (requestVisitors toInt) (some .request) HTTP_major_version =
      record (recognizer toInt HTTP_major_version) (recordMajorVersion toInt) := by
  rw [meaning_visit (some .majorVersion) id (fun _ st => st) rfl]
  rw [meaning_kept (v := .majorVersion) (recordMajorVersion toInt) rfl
    (meaning_none_recognizer hlookup (n := 64) (of_decide_eq_true rfl) rfl)]
  exact finish_id _

theorem meaning_minorVersion :
    meaning (reading toInt) (requestVisitors toInt) (some .request) HTTP_minor_version =
      record (recognizer toInt HTTP_minor_version) (recordMinorVersion toInt) := by
  rw [meaning_visit (some .minorVersion) id (fun _ st => st) rfl]
  rw [meaning_kept (v := .minorVersion) (recordMinorVersion toInt) rfl
    (meaning_none_recognizer hlookup (n := 64) (of_decide_eq_true rfl) rfl)]
  exact finish_id _

theorem meaning_version :
    meaning (reading toInt) (requestVisitors toInt) (some .request) HTTP_Version =
      recordVersion toInt := by
  rw [HTTP_Version, meaning_some_concat, meaning_some_concat, meaning_some_pair,
    meaning_majorVersion hlookup, meaning_minorVersion hlookup,
    meaning_skipped HTTP_slash (request_plainName toInt) (of_decide_eq_true rfl) rfl rfl,
    meaning_skipped (lit '.') (request_plainName toInt) (of_decide_eq_true rfl) rfl rfl]
  · rfl
  all_goals rfl

theorem meaning_method :
    meaning (reading toInt) (requestVisitors toInt) (some .request) Method =
      recordMethod toInt := by
  rw [Method, meaning_some_choice,
    meaning_kept (v := .request) (g := Http.Grammar.HttpMethod)
      (recordHttpMethod toInt) rfl,
    meaning_skipped extension_method (request_plainName toInt) (of_decide_eq_true rfl) rfl rfl]
  · rfl
  · exact meaning_none_recognizer hlookup (n := 64) (of_decide_eq_true rfl) rfl
  · rfl

theorem meaning_target :
    meaning (reading toInt) (requestVisitors toInt) (some .request) Request_URI =
      recordTarget toInt := by
  rw [recordTarget, ← meaning_requestURI hlookup (V := requestVisitors toInt) (e := .uri)
    (p := RequestParse.mutableUri) fun _ _ => rfl]
  exact meaning_visit (some (.uri .field)) id
    (fun text => RequestParse.mutableUri.modify (·.assign text)) rfl

theorem meaning_requestLine :
    meaning (reading toInt) (requestVisitors toInt) (some .request) Request_Line =
      recordRequestLine toInt := by
  rw [Request_Line, meaning_some_concat, meaning_some_concat, meaning_some_concat,
    meaning_some_concat, meaning_some_pair, meaning_method hlookup, meaning_target hlookup,
    meaning_version hlookup,
    meaning_skipped SP (request_plainName toInt) (of_decide_eq_true rfl) rfl rfl,
    meaning_skipped CRLF (request_plainName toInt) (of_decide_eq_true rfl) rfl rfl]
  · rfl
  all_goals rfl

theorem meaning_header :
    meaning (reading toInt) (requestVisitors toInt) (some .request) message_header =
      recordHeader toInt := by
  rw [meaning_visit (some .header) ({ · with name := [] }) (fun _ st => st) rfl, finish_id,
    recordHeader]
  refine congrArg (after _) ?_
  rw [message_header, meaning_some_forwardRef rfl]
  change parserMeaning _ _ _ (Glue _) = _
  rw [← meaning_some rfl, Glue, meaning_some_impliedDelim, meaning_some_impliedDelim,
    meaning_some_singleton, meaning_some_opt,
    meaning_kept (v := .header) (g := field_name)
      (fun text st => { st with name := text }) rfl,
    meaning_kept (v := .header) (g := field_value) RequestParse.emplaceHeader rfl,
    meaning_skipped (.repeat_ LWS) (header_plainName toInt) (of_decide_eq_true rfl) rfl rfl,
    meaning_skipped (lit ':') (header_plainName toInt) (of_decide_eq_true rfl) rfl rfl]
  · exact meaning_none_recognizer hlookup (n := 64) (of_decide_eq_true rfl) rfl
  · exact meaning_none_recognizer hlookup (n := 64) (of_decide_eq_true rfl) rfl
  all_goals rfl

theorem meaning_headerLine :
    meaning (reading toInt) (requestVisitors toInt) (some .request)
      (Glue [message_header, CRLF]) = recordHeaderLine toInt := by
  rw [Glue, meaning_some_impliedDelim, meaning_some_singleton, meaning_header hlookup,
    meaning_skipped (.repeat_ LWS) (request_plainName toInt) (of_decide_eq_true rfl) rfl rfl,
    meaning_skipped CRLF (request_plainName toInt) (of_decide_eq_true rfl) rfl rfl]
  · rfl
  all_goals rfl

/-- **The parse of a request** with `RequestParseVisitor`. -/
theorem meaning_request :
    meaning (reading toInt) (requestVisitors toInt) (some .request) Http.Grammar.Request =
      recordRequest toInt := by
  rw [Http.Grammar.Request, meaning_some_concat, meaning_some_pair, meaning_some_repeat,
    meaning_requestLine hlookup, meaning_headerLine hlookup,
    meaning_skipped CRLF (request_plainName toInt) (of_decide_eq_true rfl) rfl rfl]
  · rfl
  all_goals rfl

end Parser

end Hittop
