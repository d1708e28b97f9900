/-
**Requests that are parsed again** when more of the text is there.

No state of the parser is kept, so that every attempt records what the attempts before it have
recorded.  Path segments and headers are appended: an attempt that gets as far as the first of them
leaves it behind, and the next one appends it again.

Main definitions:

* `Hittop.RequestOp`, `Hittop.requestJournal` — the operations on a request;
* `Hittop.firstSegment`, `Hittop.firstHeader` — the text up to the first path segment and up to the
  first header;
* `Hittop.Reparses` — attempts on the beginnings of a text, and the last one on the text.

Main results:

* `Hittop.requestJournal_lawful` — the operations that may be done twice;
* `Hittop.logged_request` — the operations of `ParseRequest`;
* `Hittop.reparse_same_iff` — when the attempts make no difference.
-/

import Hittop.Http.Taking
import Hittop.Uri.Retries

set_option relaxedAutoImplicit false
set_option autoImplicit false

namespace Hittop

open Exec Meaning Http.Grammar
open Recognizer (Final)
open Uri.Grammar (lit)

variable {κ : Type}

/-! ### The operations on a request -/

/-- An operation on a request.  The name of a header and the values that come with it are one
operation. -/
inductive RequestOp (κ : Type)
  | method (m : HttpMethod)
  | major (n : ℤ)
  | minor (n : ℤ)
  | uri (o : UriOp κ)
  | headers (name : List κ) (values : List (List κ))

/-- The parts of a request. -/
inductive RequestPart
  | method
  | major
  | minor
  | uri (part : UriPart)
  | headers

namespace RequestOp

def step : RequestOp κ → RequestParse κ → RequestParse κ
  | method m, st => st.setHttpMethod m
  | major n, st => st.setMajorVersion n
  | minor n, st => st.setMinorVersion n
  | uri o, st => RequestParse.mutableUri.modify o.step st
  | headers name values, st =>
      { st with
        request.headers := st.request.headers ++ values.map fun value => ⟨name, value⟩
        name := name }

def kind : RequestOp κ → RequestPart
  | method _ => .method
  | major _ => .major
  | minor _ => .minor
  | uri o => .uri o.kind
  | headers _ _ => .headers

def weight : RequestOp κ → ℕ
  | uri o => o.weight
  | headers _ values => values.length
  | _ => 0

end RequestOp

def requestJournal : Journal (RequestOp κ) RequestPart (RequestParse κ) :=
  ⟨RequestOp.step, RequestOp.kind, RequestOp.weight⟩

/-- The number of path segments and headers that a request has. -/
def RequestParse.count (st : RequestParse κ) : ℕ :=
  st.request.uri.segmentCount + st.request.headers.length

/-- The request with another URI. -/
def RequestParse.withUri (st : RequestParse κ) (u : Uri κ) : RequestParse κ :=
  { st with request.uri := u }

/-- **A part of a request is overwritten**, but for path segments and headers. -/
theorem requestJournal_lawful : (requestJournal (κ := κ)).Lawful RequestParse.count where
  overwrite o o' st hkind hweight := by
    cases o <;> cases o' <;> try cases hkind
    case uri.uri o o' =>
      exact congrArg st.withUri (uriJournal_lawful.overwrite o o' st.request.uri
        (RequestPart.uri.inj hkind) hweight)
    case headers.headers name values name' values' =>
      obtain rfl := List.length_eq_zero_iff.1 hweight
      simp [requestJournal, RequestOp.step]
    all_goals rfl
  commute o o' st hkind := by
    cases o <;> cases o'
    case uri.uri o o' =>
      exact congrArg st.withUri (uriJournal_lawful.commute o o' st.request.uri
        fun h => hkind (congrArg RequestPart.uri h))
    all_goals first | rfl | exact absurd rfl hkind
  size_step o st := by
    cases o
    case uri o =>
      have hsize := uriJournal_lawful.size_step o st.request.uri
      change (uriJournal.step o st.request.uri).segmentCount + st.request.headers.length =
        st.request.uri.segmentCount + st.request.headers.length + uriJournal.weight o
      omega
    case headers name values =>
      change st.request.uri.segmentCount + (st.request.headers ++ _).length =
        st.request.uri.segmentCount + st.request.headers.length + values.length
      rw [List.length_append, List.length_map, Nat.add_assoc]
    all_goals rfl

/-! ### The rules of a request -/

theorem plain_skipped {g : Grammar} (hg : Final (recognizer octet g)) :
    Plain requestJournal (skipped octet g) (recognizer octet g) := .lift hg

theorem plain_char (x : Char) :
    Plain requestJournal (skipped octet (lit x)) (recognizer octet (lit x)) :=
  plain_skipped (final_lit x)

/-- A rule whose text is kept if it can be converted. -/
theorem plain_kept {β : Type} (convert : List Byte → Option β) (o : β → RequestOp Byte)
    {g : Grammar} {part : List Byte → RequestParse Byte → RequestParse Byte}
    (hg : Final (recognizer octet g))
    (hpart : ∀ text st, part text st = (convert text).elim st fun b => (o b).step st)
    (hweight : ∀ b, (o b).weight = 0) :
    Plain requestJournal (record (recognizer octet g) part) (recognizer octet g) := by
  refine Logged.record (fun text => ((convert text).map o).toList) hg (fun text st => ?_)
    fun text => ?_
  · rw [hpart]
    cases convert text <;> rfl
  · cases convert text with
    | none => simp
    | some b => simp [requestJournal, hweight]

theorem plain_method : Plain requestJournal (recordMethod octet) (recognizer octet Method) := by
  have hknown : Plain requestJournal
      (record (recognizer octet Http.Grammar.HttpMethod) (recordHttpMethod octet))
      (recognizer octet Http.Grammar.HttpMethod) := by
    refine plain_kept (fun text => httpMethodOf (text.map octet)) .method (final_recognizer rfl)
      (fun text st => ?_) fun _ => rfl
    rw [recordHttpMethod]
    cases httpMethodOf (text.map octet) <;> rfl
  rw [Method, recognizer_choice]
  exact hknown.alt_plain (plain_skipped (final_recognizer rfl))

theorem plain_version : Plain requestJournal (recordVersion octet)
    (recognizer octet HTTP_Version) := by
  have hmajor : Plain requestJournal
      (record (recognizer octet HTTP_major_version) (recordMajorVersion octet))
      (recognizer octet HTTP_major_version) := by
    refine plain_kept (fun text => integerParse intMax (text.map octet)) .major
      (final_recognizer rfl) (fun text st => ?_) fun _ => rfl
    rw [recordMajorVersion]
    cases integerParse intMax (text.map octet) <;> rfl
  have hminor : Plain requestJournal
      (record (recognizer octet HTTP_minor_version) (recordMinorVersion octet))
      (recognizer octet HTTP_minor_version) := by
    refine plain_kept (fun text => integerParse intMax (text.map octet)) .minor
      (final_recognizer rfl) (fun text st => ?_) fun _ => rfl
    rw [recordMinorVersion]
    cases integerParse intMax (text.map octet) <;> rfl
  have hslash : Plain requestJournal (skipped octet HTTP_slash) (recognizer octet HTTP_slash) :=
    plain_skipped (final_recognizer rfl)
  rw [HTTP_Version, recognizer_concat, recognizer_concat, recognizer_pair]
  exact hslash.seq_plain (hmajor.seq_plain ((plain_char '.').seq_plain hminor))

/-- **The target** of a request, on its URI. -/
theorem logged_target : Logged requestJournal (recordTarget octet) (recognizer octet Request_URI)
    (Accepts (recognizer octet targetSegment)) := by
  have huri : Logged requestJournal
      ((recordRequestURI octet alt).through RequestParse.mutableUri) _ _ :=
    logged_requestURI.through RequestOp.uri (fun _ _ => rfl)
      (fun _ _ hkind => congrArg RequestPart.uri hkind) fun _ => rfl
  refine huri.finish (fun text => .ok [.uri (.uri text)]) (fun _ _ => rfl) fun _ ops hops => ?_
  cases hops
  simp [requestJournal, RequestOp.weight, UriOp.weight]

/-- The text of a request up to the first segment of the path in its target. -/
def firstSegment : Grammar :=
  .concat [Method, SP, .opt (.concat [Uri.Grammar.scheme, lit ':']), .opt slashesAuthority, lit '/',
    Uri.Grammar.segment]

theorem logged_requestLine : Logged requestJournal (recordRequestLine octet)
    (recognizer octet Request_Line) (Accepts (recognizer octet firstSegment)) := by
  have hcrlf : Plain requestJournal (skipped octet CRLF) (recognizer octet CRLF) :=
    plain_skipped (final_recognizer rfl)
  rw [Request_Line, recognizer_concat, recognizer_concat, recognizer_concat, recognizer_concat,
    recognizer_pair]
  refine (plain_method.plain_seq ((plain_char ' ').plain_seq (logged_target.seq_plain
    ((plain_char ' ').seq_plain (plain_version.seq_plain hcrlf))))).congr fun s => ?_
  rw [behind_behind, behind_accepts, Recognizer.seq_assoc]
  exact Iff.rfl

/-! ### The headers of a request -/

/-- The values that are appended one by one. -/
def valueJournal : Journal (List κ) Unit (RequestParse κ) :=
  ⟨RequestParse.emplaceHeader, fun _ => (), fun _ => 1⟩

theorem perform_values (values : List (List κ)) (st : RequestParse κ) :
    valueJournal.perform values st = (RequestOp.headers st.name values).step st := by
  induction values generalizing st with
  | nil => simp [RequestOp.step]
  | cons value values ih =>
      rw [Journal.perform_cons, ih]
      simp [RequestOp.step, valueJournal, RequestParse.emplaceHeader]

theorem adds_values (values : List (List κ)) :
    values.length ≠ 0 ↔ (valueJournal (κ := κ)).Adds values := by
  cases values with
  | nil => simp
  | cons value values => simp [valueJournal]

theorem final_lines : Final (recognizer octet (.repeat_ LWS)) := final_recognizer rfl

/-- **A header** is added where it is read to its end. -/
theorem logged_header : Logged requestJournal (recordHeader octet)
    (recognizer octet message_header) (Accepts (recognizer octet message_header)) := by
  have hvalue : Logged valueJournal
      (record (recognizer octet field_value) RequestParse.emplaceHeader)
      (recognizer octet field_value) (Accepts (recognizer octet field_value)) :=
    Logged.record_adds (fun text => [text]) (final_recognizer rfl) (fun _ _ => rfl)
      fun text => by simp [valueJournal]
  -- a value is never missing, for it may be empty
  have hfull : (recognizer octet field_value).opt = recognizer octet field_value := by
    rw [recognizer_fieldValue]
    exact Recognizer.alt_of_lenient (Recognizer.lenient_star _)
  have hopt := hvalue.opt
  rw [hfull] at hopt
  have hblanks : Plain valueJournal (skipped octet (.repeat_ LWS))
      (recognizer octet (.repeat_ LWS)) := .lift final_lines
  have hcolon : Plain valueJournal (skipped octet (lit ':')) (recognizer octet (lit ':')) :=
    .lift (final_lit ':')
  have hrest :=
    hblanks.plain_seq_accepts (hcolon.plain_seq_accepts (hblanks.plain_seq_accepts hopt))
  have hheader : Logged requestJournal (recordHeader octet) _ _ :=
    Logged.collect (fun text st => { st with name := text }) ({ · with name := [] })
      RequestOp.headers (final_recognizer rfl) hrest
      (fun name values st => (perform_values values { st with name := name }).symm)
      (fun _ => rfl) (fun _ _ _ _ => rfl) fun _ values => adds_values values
  rw [recognizer_messageHeader, ← recognizer_fieldName, ← recognizer_repeat, hfull]
  exact hheader.congr fun s => behind_accepts

/-- The text of a request up to the end of its first header. -/
def firstHeader : Grammar := .concat [Request_Line, message_header]

/-- **`ParseRequest`** adds something as soon as the first segment of the path or the first header
is read. -/
theorem logged_request : Logged requestJournal (recordRequest octet)
    (recognizer octet Http.Grammar.Request) fun s =>
      Accepts (recognizer octet firstSegment) s ∨ Accepts (recognizer octet firstHeader) s := by
  have hcrlf : Plain requestJournal (skipped octet CRLF) (recognizer octet CRLF) :=
    plain_skipped (final_recognizer rfl)
  have hline : Logged requestJournal (recordHeaderLine octet)
      (recognizer octet (Glue [message_header, CRLF]))
      (Accepts (recognizer octet message_header)) := by
    rw [recognizer_headerLine, ← recognizer_repeat]
    exact logged_header.seq_plain ((plain_skipped final_lines).seq_plain hcrlf)
  have hlines := hline.loop fun s n hn => by
    rw [recognizer_headerLine, Recognizer.seq_eq_accept] at hn
    obtain ⟨k, -, hk, -, -⟩ := hn
    exact ⟨k, hk⟩
  rw [recognizer_request]
  refine (logged_requestLine.seq (hlines.seq_plain hcrlf)).congr fun s => ?_
  rw [firstHeader, recognizer_pair, behind_accepts]

/-! ### The attempts -/

/-- `ParseRequest` on a text, with a request that may have been used before. -/
def ParsesRequest (s : List Byte) (req : Request Byte) (result : ParseResult)
    (req' : Request Byte) : Prop :=
  ∃ name, Visits octets (requestVisitors octet) .request Http.Grammar.Request s
    { request := req } result ⟨req', name⟩

/-- Attempts on some texts, each of which asks for more, and at last one that accepts the whole of
`r`; all of them with the same request. -/
inductive Reparses (r : List Byte) : List (List Byte) → Request Byte → Request Byte → Prop
  | accepted {req req' : Request Byte} (h : ParsesRequest r req (.success r.length) req') :
      Reparses r [] req req'
  | incomplete {s : List Byte} {rest : List (List Byte)} {req req' req'' : Request Byte}
      {result : ParseResult} (h : ParsesRequest s req result req')
      (hmore : result.error = .incomplete) (hrest : Reparses r rest req' req'') :
      Reparses r (s :: rest) req req''

/-- The text begins with what the rule describes. -/
def Begins (g : Grammar) (s : List Byte) : Prop := ∃ n, Parses octets g s (.success n)

theorem begins_iff {g : Grammar} (hg : Rule.isPlain g = true) (s : List Byte) :
    Begins g s ↔ Accepts (recognizer octet g) s := by
  simp only [Rule.isPlain, Bool.and_eq_true, decide_eq_true_eq] at hg
  exact exists_congr fun _ => parses_success_iff (exists_parses octet_inLookup s hg.1.2 hg.2)

/-- The request that the operations leave behind. -/
def performOn (ops : List (RequestOp Byte)) (req : Request Byte) : Request Byte :=
  (requestJournal.perform ops { request := req }).request

/-- The variable for the name of a field is not read by any operation. -/
theorem perform_request (ops : List (RequestOp Byte)) (st : RequestParse Byte) :
    (requestJournal.perform ops st).request = performOn ops st.request := by
  induction ops generalizing st with
  | nil => rfl
  | cons o ops ih =>
      rw [performOn, Journal.perform_cons, Journal.perform_cons, ih, ih]
      refine congrArg (performOn ops) ?_
      cases o <;> rfl

theorem performOn_append (ops ops' : List (RequestOp Byte)) (req : Request Byte) :
    performOn (ops ++ ops') req = performOn ops' (performOn ops req) := by
  rw [performOn, Journal.perform_append, perform_request]
  rfl

variable {log : List Byte → Except Fault (List (RequestOp Byte))} {D : List Byte → Prop}
  {s r : List Byte} {ops : List (RequestOp Byte)} {req req' : Request Byte} {v : Verdict}

theorem exists_parsesRequest_run : (∃ result, ParsesRequest s req result req' ∧
    result.verdict = v) ↔
      ∃ name, recordRequest octet s { request := req } = .ok (v, ⟨req', name⟩) := by
  have hone (name : List Byte) : (∃ result, Visits octets (requestVisitors octet) .request
      Http.Grammar.Request s { request := req } result ⟨req', name⟩ ∧ result.verdict = v) ↔
      recordRequest octet s { request := req } = .ok (v, ⟨req', name⟩) := by
    rw [exists_visits_iff, ← meaning_request octet_inLookup]
    rfl
  simp only [← hone, ParsesRequest]
  constructor
  · rintro ⟨result, ⟨name, hvisits⟩, hv⟩
    exact ⟨name, result, hvisits, hv⟩
  · rintro ⟨name, result, hvisits, hv⟩
    exact ⟨result, ⟨name, hvisits⟩, hv⟩

/-- **One attempt** does its operations. -/
theorem exists_parsesRequest_iff
    (h : Logs requestJournal (recordRequest octet) (recognizer octet Http.Grammar.Request) log D)
    (hs : log s = .ok ops) :
    (∃ result, ParsesRequest s req result req' ∧ result.verdict = v) ↔
      recognizer octet Http.Grammar.Request s = v ∧ req' = performOn ops req := by
  rw [exists_parsesRequest_run, h.run_ok hs]
  constructor
  · rintro ⟨name, hrun⟩
    rw [Except.ok.injEq, Prod.mk.injEq] at hrun
    exact ⟨hrun.1, (congrArg RequestParse.request hrun.2).symm⟩
  · rintro ⟨rfl, rfl⟩
    exact ⟨_, rfl⟩

theorem parsesRequest_success_iff
    (h : Logs requestJournal (recordRequest octet) (recognizer octet Http.Grammar.Request) log D)
    (hs : log s = .ok ops) {n : ℕ} (hn : recognizer octet Http.Grammar.Request s = .accept n) :
    ParsesRequest s req (.success n) req' ↔ req' = performOn ops req := by
  have hone : (∃ result, ParsesRequest s req result req' ∧ result.verdict = .accept n) ↔ _ :=
    exists_parsesRequest_iff h hs
  simp only [ParseResult.verdict_eq_accept, exists_eq_right, hn, true_and] at hone
  exact hone

/-- A text of which more is accepted asks for more. -/
theorem incomplete_of_prefix
    (h : Logs requestJournal (recordRequest octet) (recognizer octet Http.Grammar.Request) log D)
    (hr : recognizer octet Http.Grammar.Request r = .accept r.length) (hs : s <+: r)
    (hne : s ≠ r) : recognizer octet Http.Grammar.Request s = .incomplete := by
  obtain ⟨t, rfl⟩ := hs
  by_contra hfinal
  have hlonger := (h.final s t hfinal).1
  rw [hr] at hlonger
  have hle := Recognizer.le_length hlonger.symm
  rw [List.length_append] at hle
  have ht : t = [] := List.length_eq_zero_iff.1 (by omega)
  exact hne (by rw [ht, List.append_nil])

/-- **The attempts before the last one**: what they do is covered by what it does. -/
theorem exists_prior
    (h : Logs requestJournal (recordRequest octet) (recognizer octet Http.Grammar.Request) log D)
    (hops : log r = .ok ops) (hr : recognizer octet Http.Grammar.Request r = .accept r.length)
    (prefixes : List (List Byte)) (hp : ∀ s ∈ prefixes, s <+: r ∧ s ≠ r) :
    ∃ prior, requestJournal.Covered prior ops ∧
      (requestJournal.Adds prior ↔ ∃ s ∈ prefixes, D s) ∧
      ∀ req req', Reparses r prefixes req req' ↔ req' = performOn ops (performOn prior req) := by
  induction prefixes with
  | nil =>
      refine ⟨[], .nil, by simp, fun req req' => ?_⟩
      have hlast : ParsesRequest r req (.success r.length) req' ↔ _ :=
        parsesRequest_success_iff h hops hr
      constructor
      · rintro ⟨hlast'⟩
        exact hlast.1 hlast'
      · exact fun hreq => .accepted (hlast.2 hreq)
  | cons s rest ih =>
      obtain ⟨prior, hcovered, hadds, hrest⟩ := ih fun s' hs' => hp s' (List.mem_cons_of_mem s hs')
      obtain ⟨⟨t, rfl⟩, hne⟩ := hp s List.mem_cons_self
      obtain ⟨first, hfirst, hcovered'⟩ := h.covered s t ops hops
      have hinc := incomplete_of_prefix h hr (List.prefix_append s t) hne
      refine ⟨first ++ prior, ?_, ?_, fun req req' => ?_⟩
      · intro o ho
        rcases List.mem_append.1 ho with ho | ho
        · exact hcovered' o ho
        · exact hcovered o ho
      · rw [Journal.adds_append, h.adds s first hfirst, hadds]
        simp
      · rw [performOn_append, ← hrest]
        constructor
        · intro hreparses
          cases hreparses with
          | incomplete hattempt hmore hrest' =>
              obtain ⟨-, rfl⟩ := (exists_parsesRequest_iff h hfirst).1
                ⟨_, hattempt, ParseResult.verdict_eq_incomplete.2 hmore⟩
              exact hrest'
        · intro hrest'
          obtain ⟨result, hattempt, hv⟩ := (exists_parsesRequest_iff h hfirst).2 ⟨hinc, rfl⟩
          exact .incomplete hattempt (ParseResult.verdict_eq_incomplete.1 hv) hrest'

/-- **Attempts that leave the request as it was** are those that add nothing to it. -/
theorem performOn_eq_iff {prior : List (RequestOp Byte)} (h : requestJournal.Covered prior ops) :
    performOn ops (performOn prior req) = performOn ops req ↔ ¬ requestJournal.Adds prior := by
  rw [← performOn_append, performOn, performOn, Journal.perform_append]
  constructor
  · intro hsame
    have hcount : (requestJournal.perform ops (requestJournal.perform prior
        { request := req })).count = (requestJournal.perform ops { request := req }).count :=
      congrArg (fun req => req.uri.segmentCount + req.headers.length) hsame
    exact requestJournal_lawful.not_adds_of_size hcount
  · intro hadds
    rw [requestJournal_lawful.perform_covered hadds h]

/-- **Attempts that make no difference.** A request that is accepted in full may be parsed from any
of its beginnings before.  Each attempt asks for more, and the request that is left in the end is
that of a single parse exactly if none of them reads the first segment of the path, or the first
header, to its end. -/
theorem reparse_same_iff (r : List Byte) (req : Request Byte) (prefixes : List (List Byte))
    (hwhole : ParsesWhole r req) (hp : ∀ s ∈ prefixes, s <+: r ∧ s ≠ r) :
    ∃ last, (∀ req', Reparses r prefixes {} req' ↔ req' = last) ∧
      (last = req ↔ ∀ s ∈ prefixes, ¬ Begins firstSegment s ∧ ¬ Begins firstHeader s) := by
  obtain ⟨log, hlog⟩ := logged_request
  obtain ⟨name, htakes⟩ := parsesWhole_iff.1 hwhole
  rw [Takes, List.append_nil] at htakes
  cases hr : log r with
  | error e =>
      rw [hlog.run_error hr] at htakes
      cases htakes
  | ok ops =>
      rw [hlog.run_ok hr, Except.ok.injEq, Prod.mk.injEq] at htakes
      obtain ⟨haccept, hperform⟩ := htakes
      have hreq : performOn ops {} = req := congrArg RequestParse.request hperform
      obtain ⟨prior, hcovered, hadds, hreparses⟩ := exists_prior hlog hr haccept prefixes hp
      have hsegment := begins_iff (g := firstSegment) rfl
      have hheader := begins_iff (g := firstHeader) rfl
      refine ⟨performOn ops (performOn prior {}), hreparses {}, ?_⟩
      rw [← hreq, performOn_eq_iff hcovered, hadds]
      simp only [hsegment, hheader, not_exists, not_and, not_or]

/-- What is recorded for `GET /a`, with these segments and headers. -/
def getRequest (segments : List (List Byte)) (headers : List (Header Byte)) : Request Byte where
  method := .http .GET
  uri := { uri := some (bytes "/a"), path := some (bytes "/a"), path_segments := some segments }
  headers := headers

theorem reparse_same_iff_get : ∃ last, (∀ req', Reparses (bytes "GET /a HTTP/1.1\r\n\r\n")
    [bytes "GET", bytes "GET /"] {} req' ↔ req' = last) ∧
      (last = getRequest [bytes "a"] [] ↔
        ∀ s ∈ [bytes "GET", bytes "GET /"], ¬ Begins firstSegment s ∧ ¬ Begins firstHeader s) :=
  reparse_same_iff _ _ _ (parsesWhole_iff.2 ⟨[], by rw [Takes]; decide +kernel⟩) (by decide)

theorem Reparses.of_run {rest : List (List Byte)} {req₁ : Request Byte} {name : List Byte}
    (h : recordRequest octet s { request := req } = .ok (.incomplete, ⟨req₁, name⟩))
    (hrest : Reparses r rest req₁ req') : Reparses r (s :: rest) req req' := by
  obtain ⟨result, hattempt, hv⟩ := exists_parsesRequest_run.2 ⟨name, h⟩
  exact .incomplete hattempt (ParseResult.verdict_eq_incomplete.1 hv) hrest

theorem Reparses.of_last {name : List Byte}
    (h : recordRequest octet r { request := req } = .ok (.accept r.length, ⟨req', name⟩)) :
    Reparses r [] req req' := by
  obtain ⟨result, hattempt, hv⟩ := exists_parsesRequest_run.2 ⟨name, h⟩
  rw [ParseResult.verdict_eq_accept] at hv
  exact .accepted (hv ▸ hattempt)

/-- Each of two attempts leaves a segment behind, and the second one a header. -/
theorem reparse_appends :
    ParsesWhole (bytes "GET /a HTTP/1.1\r\nA:b\r\n\r\n")
      (getRequest [bytes "a"] [⟨bytes "A", bytes "b"⟩]) ∧
    Reparses (bytes "GET /a HTTP/1.1\r\nA:b\r\n\r\n")
      [bytes "GET /a ", bytes "GET /a HTTP/1.1\r\nA:b\r\n\r"] {}
      (getRequest [bytes "a", bytes "a", bytes "a"]
        [⟨bytes "A", bytes "b"⟩, ⟨bytes "A", bytes "b"⟩]) ∧
    getRequest [bytes "a", bytes "a", bytes "a"]
        [⟨bytes "A", bytes "b"⟩, ⟨bytes "A", bytes "b"⟩] ≠
      getRequest [bytes "a"] [⟨bytes "A", bytes "b"⟩] := by
  have hwhole : recordRequest octet (bytes "GET /a HTTP/1.1\r\nA:b\r\n\r\n" ++ []) {} =
      .ok (.accept 24, ⟨getRequest [bytes "a"] [⟨bytes "A", bytes "b"⟩], []⟩) := by
    decide +kernel
  have hfirst : recordRequest octet (bytes "GET /a ") {} =
      .ok (.incomplete, ⟨getRequest [bytes "a"] [], []⟩) := by
    decide +kernel
  have hsecond : recordRequest octet (bytes "GET /a HTTP/1.1\r\nA:b\r\n\r")
      { request := getRequest [bytes "a"] [] } =
      .ok (.incomplete, ⟨getRequest [bytes "a", bytes "a"] [⟨bytes "A", bytes "b"⟩], []⟩) := by
    decide +kernel
  have hlast : recordRequest octet (bytes "GET /a HTTP/1.1\r\nA:b\r\n\r\n")
      { request := getRequest [bytes "a", bytes "a"] [⟨bytes "A", bytes "b"⟩] } =
      .ok (.accept 24, ⟨getRequest [bytes "a", bytes "a", bytes "a"]
        [⟨bytes "A", bytes "b"⟩, ⟨bytes "A", bytes "b"⟩], []⟩) := by
    decide +kernel
  exact ⟨parsesWhole_iff.2 ⟨[], hwhole⟩, .of_run hfirst (.of_run hsecond (.of_last hlast)),
    by decide⟩

end Hittop
