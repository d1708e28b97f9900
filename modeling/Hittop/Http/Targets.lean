/-
**The target of a request as a reference.**

A URI is parsed in two ways: as a reference, by the rule `URI_reference` with `MakeUriParseVisitor`,
and as the target of a request, by the rule `Request_URI` with the visitors of the request.  The
second rule tries a hierarchical part first, and an absolute URI only after that; its visitors work
on a part of a larger state.  Here the two parses are compared on the target of a request.

Main results:

* `Hittop.target_eq_make` — on a text that begins with a slash they are one and the same run;
* `Hittop.origin_form_as_reference` — `ParseRequest` records such a target as a reference, whatever
  comes of either parse, and throws where the parse of a reference does;
* `Hittop.absolute_form_as_reference` — so it does with an absolute URI in a request that is
  accepted.
-/

import Hittop.Http.Retries
import Hittop.Uri.Stale

set_option relaxedAutoImplicit false
set_option autoImplicit false

namespace Hittop

open Exec Meaning Uri.Grammar

variable {κ σ : Type}

/-! ### Alternatives that are not reached -/

namespace Meaning

variable {m m' m'' : Meaning κ σ} {s : List κ} {st : σ}

/-- A run that does not end in a rejection is that of the first alternative. -/
theorem alt_eq_left (h : ∀ st', m s st ≠ .ok (.reject, st')) : m.alt m' s st = m s st := by
  cases hm : m s st with
  | error e => exact alt_of_error hm
  | ok q =>
      obtain ⟨v, st'⟩ := q
      cases v with
      | accept n => exact alt_of_accept hm
      | incomplete => exact alt_of_incomplete hm
      | reject => exact absurd hm (h st')

theorem alt_congr_right (h : m' s = m'' s) : m.alt m' s = m.alt m'' s := by
  simp only [alt, h]

theorem seq_congr_left (h : m s = m' s) : m.seq m'' s = m'.seq m'' s := by
  simp only [seq, h]

theorem finish_congr {accepted : List κ → σ → Except Fault σ} {failed : σ → σ}
    (h : m s = m' s) : m.finish accepted failed s = m'.finish accepted failed s := by
  simp only [finish, h]

end Meaning

/-- Where the rule does not reject, neither does the parse. -/
theorem Keeps.ne_reject {β : Type} {get : σ → β} {m : Meaning κ σ} {f : Recognizer κ}
    (h : Keeps get m f) {s : List κ} (hs : f s ≠ .reject) (st st' : σ) :
    m s st ≠ .ok (.reject, st') :=
  fun hm => hs (h s st _ st' hm).1.symm

/-! ### A target that begins with a slash -/

section Origin

variable {toInt : κ → ℤ} {s : List κ} {n : ℕ}

theorem absPath_ne_reject (h : recognizer toInt (lit '/') s = .accept n) :
    recognizer toInt abs_path s ≠ .reject := by
  intro hreject
  rw [absPath_eq_reject_iff, h] at hreject
  cases hreject

theorem hierPart_ne_reject (h : recognizer toInt (lit '/') s = .accept n) :
    recognizer toInt hier_part s ≠ .reject := by
  rw [hier_part, recognizer_pair, recognizer_choice]
  intro hreject
  have hlenient : (recognizer toInt (.opt (.concat [lit '?', query]))).Lenient :=
    Recognizer.lenient_opt _
  rw [Recognizer.seq_eq_reject_iff hlenient] at hreject
  by_cases hnet : recognizer toInt net_path s = .reject
  · rw [Recognizer.alt_of_reject hnet] at hreject
    exact absPath_ne_reject h hreject
  · rw [Recognizer.alt_of_ne_reject hnet] at hreject
    exact hnet hreject

/-- The first alternative of `Request_URI` is taken. -/
theorem recordRequestURI_slash (h : recognizer toInt (lit '/') s = .accept n) :
    recordRequestURI toInt alt s =
      (recordHierPart toInt alt).seq (recordFragment toInt alt) s := by
  funext u
  have hkeeps : Keeps (fun _ : Uri κ => ()) (recordHierPart toInt alt)
      (recognizer toInt hier_part) :=
    keeps_hierPart toInt isChoice_alt trivialUntouched (fun _ _ => rfl) fun _ => rfl
  have hlenient : (recognizer toInt (.opt (.concat [lit '#', fragment]))).Lenient :=
    Recognizer.lenient_opt _
  refine alt_eq_left ((hkeeps.seq
    (keeps_fragment toInt isChoice_alt trivialUntouched)).ne_reject ?_ u)
  rw [Ne, Recognizer.seq_eq_reject_iff hlenient]
  exact hierPart_ne_reject h

/-- A relative URI is a `hier_part` there. -/
theorem recordRelativeURI_slash (h : recognizer toInt (lit '/') s = .accept n) :
    recordRelativeURI toInt alt s = recordHierPart toInt alt s := by
  refine seq_congr_left (alt_congr_right ?_)
  funext u
  exact alt_eq_left ((keeps_absPath toInt trivialUntouched).ne_reject (absPath_ne_reject h) u)

/-- The absolute URI of a reference is rejected at once, with nothing done. -/
theorem recordAbsoluteURI_slash (h : recognizer toInt (lit '/') s = .accept n) (u : Uri κ) :
    recordAbsoluteURI toInt alt s u = .ok (.reject, u) :=
  seq_of_reject (record_of_reject (scheme_reject (by decide) h) u)

theorem recordReference_slash (h : recognizer toInt (lit '/') s = .accept n) :
    recordReference toInt alt s =
      (recordHierPart toInt alt).seq (recordFragment toInt alt) s := by
  refine seq_congr_left ?_
  funext u
  have hchoice : (recordAbsoluteURI toInt alt).alt (recordRelativeURI toInt alt) s u =
      recordHierPart toInt alt s u := by
    rw [alt_of_reject (recordAbsoluteURI_slash h u), recordRelativeURI_slash h]
  have hkeeps : Keeps (fun _ : Uri κ => ()) (recordHierPart toInt alt)
      (recognizer toInt hier_part) :=
    keeps_hierPart toInt isChoice_alt trivialUntouched (fun _ _ => rfl) fun _ => rfl
  rw [← hchoice]
  refine alt_eq_left ?_
  rw [hchoice]
  exact hkeeps.ne_reject (hierPart_ne_reject h) u

/-- **The two rules agree**, as runs, on a text that begins with a slash. -/
theorem recordRequestURI_eq_reference (h : recognizer toInt (lit '/') s = .accept n) :
    recordRequestURI toInt alt s = recordReference toInt alt s := by
  rw [recordRequestURI_slash h, recordReference_slash h]

end Origin

/-- The target of a request is recorded by a parse that works on the URI of the request. -/
theorem recordTarget_eq_through (toInt : κ → ℤ) : recordTarget toInt =
    ((recordRequestURI toInt alt).finish (fun text u => .ok (u.assign text)) id).through
      RequestParse.mutableUri := by
  rw [through_finish]
  rfl

theorem lit_slash (w : List Byte) : recognizer octet (lit '/') (47 :: w) = .accept 1 := by
  rw [recognizer_lit, Recognizer.satisfy_cons]
  rfl

/-- **A target that begins with a slash** is parsed as `MakeUriParseVisitor` parses it. -/
theorem target_eq_make (w : List Byte) : recordTarget octet (47 :: w) = Exec.through
    RequestParse.mutableUri
      (meaning octets (uriVisitors octet) (some .make) URI_reference (47 :: w)) := by
  rw [recordTarget_eq_through, Meaning.through,
    finish_congr (recordRequestURI_eq_reference (lit_slash w))]
  refine congrArg (Exec.through RequestParse.mutableUri) ?_
  funext u
  exact (meaning_make_octets (47 :: w) u).symm

/-! ### The rest of a request -/

section Rest

variable (toInt : κ → ℤ)

/-- The URI of the request. -/
def RequestParse.target (st : RequestParse κ) : Uri κ := st.request.uri

theorem recordHttpMethod_target (text : List κ) (st : RequestParse κ) :
    (recordHttpMethod toInt text st).target = st.target := by
  unfold recordHttpMethod
  split <;> rfl

theorem recordMajorVersion_target (text : List κ) (st : RequestParse κ) :
    (recordMajorVersion toInt text st).target = st.target := by
  unfold recordMajorVersion
  split <;> rfl

theorem recordMinorVersion_target (text : List κ) (st : RequestParse κ) :
    (recordMinorVersion toInt text st).target = st.target := by
  unfold recordMinorVersion
  split <;> rfl

theorem silent_method_target : Silent RequestParse.target (recordMethod toInt)
    (recognizer toInt Http.Grammar.Method) := by
  rw [Http.Grammar.Method, recognizer_choice]
  exact (Silent.record (recordHttpMethod_target toInt)).alt (Silent.lift _)

/-- What follows the target in a request. -/
def recordBehindTarget : Meaning κ (RequestParse κ) :=
  ((skipped toInt Http.Grammar.SP).seq
    ((recordVersion toInt).seq (skipped toInt Http.Grammar.CRLF))).seq
    ((recordHeaderLine toInt).loop.seq (skipped toInt Http.Grammar.CRLF))

theorem recordRequest_eq : recordRequest toInt = (recordMethod toInt).seq
    ((skipped toInt Http.Grammar.SP).seq
      ((recordTarget toInt).seq (recordBehindTarget toInt))) := by
  simp only [recordRequest, recordRequestLine, recordBehindTarget, seq_assoc]

/-- Nothing behind the target changes it, or throws. -/
theorem silent_behindTarget :
    ∃ f, Silent RequestParse.target (recordBehindTarget toInt)
      ((recognizer toInt Http.Grammar.SP).seq f) := by
  have hversion : Silent RequestParse.target (recordVersion toInt) _ :=
    (Silent.lift (recognizer toInt Http.Grammar.HTTP_slash)).seq
      ((Silent.record (recordMajorVersion_target toInt)).seq
        ((Silent.lift (recognizer toInt (lit '.'))).seq
          (Silent.record (recordMinorVersion_target toInt))))
  have hname : Silent RequestParse.target (Meaning.record
      (recognizer toInt Http.Grammar.field_name) fun text st => { st with name := text }) _ :=
    Silent.record fun _ _ => by rfl
  have hvalue : Silent RequestParse.target
      (Meaning.record (recognizer toInt Http.Grammar.field_value) RequestParse.emplaceHeader).opt
      _ :=
    (Silent.record fun _ _ => by rfl).alt (Silent.lift .eps)
  have hline : Silent RequestParse.target (recordHeaderLine toInt) _ :=
    Silent.seq (Silent.after (hname.seq ((Silent.lift _).seq
      ((Silent.lift _).seq ((Silent.lift _).seq hvalue)))) fun _ => by rfl)
      ((Silent.lift _).seq (Silent.lift _))
  have hend : Silent RequestParse.target (skipped toInt Http.Grammar.CRLF) _ :=
    Silent.lift (recognizer toInt Http.Grammar.CRLF)
  have hrest := (hversion.seq hend).seq (hline.loop.seq hend)
  rw [recordBehindTarget, seq_assoc]
  exact ⟨_, (Silent.lift _).seq hrest⟩

end Rest

section Request

variable {s t : List Byte} {k : ℕ} (hm : recognizer octet Http.Grammar.Method s = .accept k)
  (hs : s.drop k = 32 :: t)
include hm hs

/-- A request from its target on. -/
theorem recordRequest_at_target (st : RequestParse Byte) : ∃ st₁, st₁.target = st.target ∧
    recordRequest octet s st = ((recordTarget octet).seq (recordBehindTarget octet) t >>=
      fun v => pure (v.advance (k + 1))) st₁ := by
  obtain ⟨st₁, hmethod, htarget⟩ := silent_method_target octet s st
  rw [hm] at hmethod
  refine ⟨st₁, htarget, ?_⟩
  have hspace : skipped octet Http.Grammar.SP (32 :: t) st₁ = .ok (.accept 1, st₁) := rfl
  rw [recordRequest_eq, seq_of_accept hmethod, hs, bind_eq, seq_of_accept hspace, List.drop_one,
    List.tail_cons, bind_eq, bind_eq]
  cases (recordTarget octet).seq (recordBehindTarget octet) t st₁ with
  | error e => rfl
  | ok q =>
      obtain ⟨v, st₂⟩ := q
      simp only [pure_apply, Verdict.advance_advance]

/-- What becomes of a request whose target is parsed. -/
theorem recordRequest_of_target (st : RequestParse Byte) : ∃ st₁, st₁.target = st.target ∧
    (∀ e, recordTarget octet t st₁ = .error e → recordRequest octet s st = .error e) ∧
    ∀ v st₂, recordTarget octet t st₁ = .ok (v, st₂) →
      ∃ w st', recordRequest octet s st = .ok (w, st') ∧ st'.target = st₂.target ∧
        (v = .incomplete → w = .incomplete) ∧
        ∀ n, w = .accept n → ∃ j, v = .accept j ∧ (t.drop j).head? = some 32 := by
  obtain ⟨st₁, htarget, hrun⟩ := recordRequest_at_target hm hs st
  refine ⟨st₁, htarget, fun e he => ?_, fun v st₂ hv => ?_⟩
  · rw [hrun, bind_of_error (seq_of_error he)]
  · obtain ⟨f, hbehind⟩ := silent_behindTarget octet
    cases v with
    | accept j =>
        obtain ⟨st', hrest, hkept⟩ := hbehind (t.drop j) st₂
        rw [bind_of_ok (seq_ok hv hrest)] at hrun
        refine ⟨_, st', hrun, hkept, fun h => (by cases h), fun n hn => ⟨j, rfl, ?_⟩⟩
        -- an accepted request goes on with a space
        obtain ⟨n', hn', -⟩ := Verdict.advance_eq_accept.1 hn
        obtain ⟨i, hi, -⟩ := Verdict.advance_eq_accept.1 hn'
        obtain ⟨a, -, ha, -, -⟩ := Recognizer.seq_eq_accept.1 hi
        obtain ⟨-, y, hy⟩ := (lit_eq_accept (x := ' ') (b := 32) rfl).1 ha
        rw [hy, List.head?_cons]
    | incomplete =>
        rw [bind_of_ok (seq_of_incomplete hv)] at hrun
        exact ⟨_, st₂, hrun, rfl, fun _ => rfl, fun n hn => by cases hn⟩
    | reject =>
        rw [bind_of_ok (seq_of_reject hv)] at hrun
        exact ⟨_, st₂, hrun, rfl, fun h => (by cases h), fun n hn => by cases hn⟩

end Request

/-! ### The two parsers -/

/-- `MakeUriParseVisitor` on a text, with a URI that may have been used before. -/
def ParsesReference (t : List Byte) (u : Uri Byte) (r : ParseResult) (u' : Uri Byte) : Prop :=
  Visits octets (uriVisitors octet) .make URI_reference t u r u'

theorem exists_parsesReference_run {t : List Byte} {u u' : Uri Byte} {v : Verdict} :
    (∃ r, ParsesReference t u r u' ∧ r.verdict = v) ↔
      meaning octets (uriVisitors octet) (some .make) URI_reference t u = .ok (v, u') :=
  exists_visits_iff

theorem method_accept {s : List Byte} {k : ℕ}
    (h : Parses octets Http.Grammar.Method s (.success k)) :
    recognizer octet Http.Grammar.Method s = .accept k :=
  (h.verdict_eq (n := 64) octet_inLookup (of_decide_eq_true rfl) rfl).symm

section Forms

variable {s w : List Byte} {k : ℕ}

/-- A request whose target begins with a slash, from the parse of a reference. -/
theorem origin_run (hm : recognizer octet Http.Grammar.Method s = .accept k)
    (hs : s.drop k = 32 :: 47 :: w) (st : RequestParse Byte) :
    (∀ e, meaning octets (uriVisitors octet) (some .make) URI_reference (47 :: w) st.target =
      .error e → recordRequest octet s st = .error e) ∧
    ∀ v u, meaning octets (uriVisitors octet) (some .make) URI_reference (47 :: w) st.target =
      .ok (v, u) →
      ∃ v' st', recordRequest octet s st = .ok (v', st') ∧ st'.target = u ∧
        (v = .incomplete → v' = .incomplete) ∧
        ∀ n, v' = .accept n → ∃ j, v = .accept j ∧ ((47 :: w).drop j).head? = some 32 := by
  obtain ⟨st₁, htarget, herror, hok⟩ := recordRequest_of_target hm hs st
  have hget : RequestParse.mutableUri.get st₁ = st.target := htarget
  constructor
  · intro e he
    refine herror e ?_
    rw [target_eq_make, Exec.through, hget, he]
  · intro v u hv
    refine hok v (RequestParse.mutableUri.set u st₁) ?_
    rw [target_eq_make, Exec.through, hget, hv]

/-- **A target that begins with a slash is recorded as a reference.**  After a method and a space,
`ParseRequest` returns exactly where the parse of a reference does, and leaves the same URI,
whatever the URI was before.  It asks for more where that does, and accepts only where that ends
before a space. -/
theorem origin_form_as_reference (hm : Parses octets Http.Grammar.Method s (.success k))
    (hs : s.drop k = 32 :: 47 :: w) (req : Request Byte) :
    (∀ u, (∃ result req', ParsesRequest s req result req' ∧ req'.uri = u) ↔
      ∃ r, ParsesReference (47 :: w) req.uri r u) ∧
    ∀ result req' r u, ParsesRequest s req result req' → ParsesReference (47 :: w) req.uri r u →
      (r.error = .incomplete → result.error = .incomplete) ∧
      (result.ok = true → r.ok = true ∧ ((47 :: w).drop r.pos).head? = some 32) := by
  obtain ⟨herror, hok⟩ := origin_run (method_accept hm) hs { request := req }
  have hrequest (result req') (h : ParsesRequest s req result req') :
      ∃ name, recordRequest octet s { request := req } = .ok (result.verdict, ⟨req', name⟩) :=
    exists_parsesRequest_run.1 ⟨result, h, rfl⟩
  have hreference (r u) (h : ParsesReference (47 :: w) req.uri r u) :
      meaning octets (uriVisitors octet) (some .make) URI_reference (47 :: w) req.uri =
        .ok (r.verdict, u) := exists_parsesReference_run.1 ⟨r, h, rfl⟩
  refine ⟨fun u => ⟨?_, ?_⟩, ?_⟩
  · rintro ⟨result, req', hparses, rfl⟩
    obtain ⟨name, hrun⟩ := hrequest result req' hparses
    cases hmake : meaning octets (uriVisitors octet) (some .make) URI_reference (47 :: w)
        req.uri with
    | error e =>
        rw [herror e hmake] at hrun
        cases hrun
    | ok q =>
        obtain ⟨v, u⟩ := q
        obtain ⟨v', st', hrun', rfl, -⟩ := hok v u hmake
        rw [hrun] at hrun'
        cases hrun'
        obtain ⟨r, hr, -⟩ := exists_parsesReference_run.2 hmake
        exact ⟨r, hr⟩
  · rintro ⟨r, hr⟩
    obtain ⟨v', ⟨req', name⟩, hrun, htarget, -⟩ := hok _ u (hreference r u hr)
    obtain ⟨result, hparses, -⟩ := exists_parsesRequest_run.2 ⟨name, hrun⟩
    exact ⟨result, req', hparses, htarget⟩
  · intro result req' r u hparses hr
    obtain ⟨name, hrun⟩ := hrequest result req' hparses
    obtain ⟨v', st', hrun', -, hincomplete, haccept⟩ := hok _ u (hreference r u hr)
    rw [hrun] at hrun'
    cases hrun'
    refine ⟨fun h => ?_, fun h => ?_⟩
    · exact ParseResult.verdict_eq_incomplete.1
        (hincomplete (ParseResult.verdict_eq_incomplete.2 h))
    · have hverdict := congrArg ParseResult.verdict (ParseResult.eq_success h)
      obtain ⟨j, hj, hspace⟩ := haccept _ hverdict
      rw [ParseResult.verdict_eq_accept] at hj
      subst hj
      exact ⟨rfl, hspace⟩

/-- The target `/a?b` after `GET`. -/
theorem origin_form_as_reference_query :
    (∀ u, (∃ result req', ParsesRequest (bytes "GET /a?b HTTP/1.1\r\n\r\n") {} result req' ∧
        req'.uri = u) ↔
      ∃ r, ParsesReference (bytes "/a?b HTTP/1.1\r\n\r\n") {} r u) ∧
    ∀ result req' r u, ParsesRequest (bytes "GET /a?b HTTP/1.1\r\n\r\n") {} result req' →
      ParsesReference (bytes "/a?b HTTP/1.1\r\n\r\n") {} r u →
      (r.error = .incomplete → result.error = .incomplete) ∧
      (result.ok = true → r.ok = true ∧
        ((bytes "/a?b HTTP/1.1\r\n\r\n").drop r.pos).head? = some 32) := by
  have hm : Parses octets Http.Grammar.Method (bytes "GET /a?b HTTP/1.1\r\n\r\n")
      (.success 3) :=
    (parses_success_iff (exists_parses (n := 64) octet_inLookup _ (of_decide_eq_true rfl)
      rfl)).2 (by decide +kernel)
  exact origin_form_as_reference hm rfl {}

/-! ### An absolute URI as the target -/

/-- An absolute URI does not depend on whether there is a list of segments yet. -/
theorem recordAbsoluteURI_segments {t : List Byte} {m : ℕ} {u₁ : Uri Byte}
    (h : recordAbsoluteURI octet alt t (Uri.mutablePathSegments {}) = .ok (.accept m, u₁)) :
    ∃ u₀, recordAbsoluteURI octet alt t {} = .ok (.accept m, u₀) ∧ ∀ text,
      (u₁.assign text).mutablePathSegments = (u₀.assign text).mutablePathSegments := by
  have hsegments := tracks_absoluteURI octet t (Uri.mutablePathSegments {}) {} rfl
  have hfresh := tracks_absoluteURI octet t {} {} rfl
  rw [h] at hsegments
  generalize recordAbsoluteURI octet orElse t {} = x at hsegments hfresh
  cases hsegments with
  | ok v w w' same rejected =>
      generalize hrun : recordAbsoluteURI octet alt t {} = y at hfresh
      cases hfresh with
      | ok v u₀ w'' same' rejected' =>
          have hscheme := sets_scheme_absoluteURI octet isChoice_alt t
          have huser := sets_user_absoluteURI octet isChoice_alt (sets_user_server_alt octet) t
          refine ⟨u₀, rfl, fun text =>
            (mutablePathSegments_eq_iff (same.trans same'.symm) text).2 ⟨?_, ?_⟩⟩
          · rw [(hscheme _ _ u₁ rfl h).2, (hscheme _ _ u₀ rfl hrun).2]
          · rw [(huser _ _ u₁ rfl h).2, (huser _ _ u₀ rfl hrun).2]

/-- Where an absolute URI is read, the alternatives before it have created the list of segments. -/
theorem recordRequestURI_absolute {t : List Byte} {m : ℕ}
    (h : recognizer octet absoluteURI t = .accept m) (u : Uri Byte) :
    recordRequestURI octet alt t u = (recordAbsoluteURI octet alt).alt
      ((recordAbsPath octet).alt (recordAuthority octet alt)) t u.mutablePathSegments := by
  obtain ⟨k, hscheme⟩ := absoluteURI_scheme octet h
  have hslash := lit_reject_of_scheme (x := '/') (by decide) hscheme
  have hstar := lit_reject_of_scheme (x := '*') (by decide) hscheme
  have hhier : Refuses (recordHierPart octet alt) t u u.mutablePathSegments := by
    cases t with
    | nil => simp [recognizer_lit] at hslash
    | cons c t =>
        refine refuses_hierPart (fun hc => ?_) u
        rw [hc, lit_slash] at hslash
        cases hslash
  have hrejects : unrecorded octet Http.Grammar.Star t u.mutablePathSegments =
      .ok (.reject, u.mutablePathSegments) := by
    rw [unrecorded, lift_apply, Http.Grammar.Star, recognizer_forwardRef _ _ rfl]
    exact congrArg (fun v => Except.ok (v, _)) hstar
  rw [recordRequestURI, alt_of_reject (seq_of_reject hhier), alt_of_reject hrejects]

/-- A target that is accepted, where an absolute URI is read, is that absolute URI. -/
theorem recordRequestURI_absolute_accept {t : List Byte} {j m : ℕ} {u u' : Uri Byte}
    (h : recognizer octet absoluteURI t = .accept m) (hu : u.scheme = none)
    (hrun : recordRequestURI octet alt t u = .ok (.accept j, u')) :
    j = m ∧ recordAbsoluteURI octet alt t u.mutablePathSegments = .ok (.accept m, u') := by
  have hscheme := sets_scheme_absoluteURI octet isChoice_alt t u.mutablePathSegments
  rw [recordRequestURI_absolute h] at hrun
  rcases alt_cases hrun with ⟨habsolute, -⟩ | ⟨u₁, habsolute, -⟩
  · have hj := (hscheme _ u' hu habsolute).1
    rw [h] at hj
    cases hj
    exact ⟨rfl, habsolute⟩
  · have hreject := (hscheme _ u₁ hu habsolute).1
    rw [h] at hreject
    cases hreject

/-- A reference that is an absolute URI in front of a space. -/
theorem recordReference_absolute {t : List Byte} {m : ℕ} {u u' : Uri Byte}
    (h : recordAbsoluteURI octet alt t u = .ok (.accept m, u'))
    (hspace : (t.drop m).head? = some 32) :
    recordReference octet alt t u = .ok (.accept m, u') := by
  have hfragment : recordFragment octet alt (t.drop m) u' = .ok (.accept 0, u') := by
    obtain ⟨y, hy⟩ := List.head?_eq_some_iff.1 hspace
    rw [hy]
    exact alt_of_reject (seq_of_reject (congrArg (fun v => Except.ok (v, u'))
      (lit_reject (x := '#') (b := 32) (by decide) y)))
  exact seq_ok (alt_of_accept (alt_of_accept h)) hfragment

/-- **An absolute URI is recorded as a reference** in a request that is accepted: the parse of a
reference succeeds on it, ends before the space, and leaves the same URI but for an empty list of
segments. -/
theorem absolute_form_as_reference {n m : ℕ} {req : Request Byte}
    (hm : Parses octets Http.Grammar.Method s (.success k)) (hs : s.drop k = 32 :: w)
    (habsolute : Parses octets absoluteURI w (.success m))
    (hrequest : ParsesRequest s {} (.success n) req) :
    ∃ u, ParsesReference w {} (.success m) u ∧ (w.drop m).head? = some 32 ∧
      req.uri.mutablePathSegments = u.mutablePathSegments := by
  have haccept : recognizer octet absoluteURI w = .accept m :=
    (habsolute.verdict_eq (n := 64) octet_inLookup (of_decide_eq_true rfl) rfl).symm
  obtain ⟨name, hrun⟩ := exists_parsesRequest_run.1 ⟨_, hrequest, rfl⟩
  obtain ⟨st₁, htarget, herror, hok⟩ := recordRequest_of_target (method_accept hm) hs {}
  cases hparse : recordTarget octet w st₁ with
  | error e =>
      rw [herror e hparse] at hrun
      cases hrun
  | ok q =>
      obtain ⟨v, st₂⟩ := q
      obtain ⟨v', st', hrun', hkept, -, hends⟩ := hok v st₂ hparse
      rw [hrun] at hrun'
      cases hrun'
      obtain ⟨j, rfl, hspace⟩ := hends n rfl
      -- what the target has recorded
      rw [recordTarget_eq_through] at hparse
      obtain ⟨u, hfinish, rfl⟩ := through_cases hparse
      obtain ⟨u₁, huri, hassigned⟩ := finish_cases hfinish
      obtain ⟨i, hi, hassigned⟩ := hassigned.resolve_right fun hno => hno.1 j rfl
      cases hi
      cases hassigned
      -- what the parse of a reference records from the same state
      have hfresh : RequestParse.mutableUri.get st₁ = {} := htarget
      rw [hfresh] at huri
      obtain ⟨rfl, habsolute₁⟩ := recordRequestURI_absolute_accept haccept rfl huri
      obtain ⟨u₀, habsolute₀, hsame⟩ := recordAbsoluteURI_segments habsolute₁
      refine ⟨_, visits_success (recordReference_absolute habsolute₀ hspace), hspace, ?_⟩
      have htext : req.uri = u₁.assign (w.take j) := hkept
      rw [htext]
      exact hsame (w.take j)

/-- The target `http://h/x` after `GET`. -/
theorem absolute_form_as_reference_host : ∃ req u,
    ParsesRequest (bytes "GET http://h/x HTTP/1.1\r\n\r\n") {} (.success 27) req ∧
    ParsesReference (bytes "http://h/x HTTP/1.1\r\n\r\n") {} (.success 10) u ∧
    ((bytes "http://h/x HTTP/1.1\r\n\r\n").drop 10).head? = some 32 ∧
    req.uri.mutablePathSegments = u.mutablePathSegments := by
  have hm : Parses octets Http.Grammar.Method (bytes "GET http://h/x HTTP/1.1\r\n\r\n")
      (.success 3) :=
    (parses_success_iff (exists_parses (n := 64) octet_inLookup _ (of_decide_eq_true rfl)
      rfl)).2 (by decide +kernel)
  have habsolute : Parses octets absoluteURI (bytes "http://h/x HTTP/1.1\r\n\r\n")
      (.success 10) :=
    (parses_success_iff (exists_parses (n := 64) octet_inLookup _ (of_decide_eq_true rfl)
      rfl)).2 (by decide +kernel)
  have hrun : ∃ st, recordRequest octet (bytes "GET http://h/x HTTP/1.1\r\n\r\n") {} =
      .ok (.accept 27, st) := ⟨⟨{
    method := .http .GET
    uri := {
      uri := some (bytes "http://h/x"), scheme := some (bytes "http"), host := some (bytes "h")
      path := some (bytes "/x"), path_segments := some [bytes "x"] }
    version := ⟨1, 1⟩ }, []⟩, by decide +kernel⟩
  obtain ⟨⟨req, name⟩, hrun⟩ := hrun
  obtain ⟨result, hrequest, hv⟩ := exists_parsesRequest_run.2 ⟨name, hrun⟩
  rw [ParseResult.verdict_eq_accept] at hv
  subst hv
  obtain ⟨u, hreference, hspace, hsame⟩ := absolute_form_as_reference hm rfl habsolute hrequest
  exact ⟨req, u, hrequest, hreference, hspace, hsame⟩

end Forms

end Hittop
