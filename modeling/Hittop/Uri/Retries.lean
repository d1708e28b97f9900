/-
**What the parse of a URI does again** when it is begun again.

The fields of a URI are assigned: it makes no difference that an earlier parse has assigned them.
The segments of a path are appended, and an earlier parse that has read one leaves it behind.

Main definitions:

* `Hittop.UriOp`, `Hittop.uriJournal` — the operations on a URI;
* `Hittop.targetSegment` — the text of a target up to the first segment of its path.

Main results:

* `Hittop.uriJournal_lawful` — the operations that may be done twice;
* `Hittop.logged_absPath`, `Hittop.plain_authority`, … — the rules below a target;
* `Hittop.logged_requestURI` — a target adds something as soon as the first segment of its path is
  read.
-/

import Hittop.Retrying
import Hittop.Streaming
import Hittop.Uri.Stale

set_option relaxedAutoImplicit false
set_option autoImplicit false

namespace Hittop

open Exec Meaning Uri.Grammar
open Http.Grammar (Request_URI)
open Recognizer (Final)

variable {κ : Type}

/-! ### The operations on a URI -/

/-- An operation on a URI.  The segments of a path are one operation. -/
inductive UriOp (κ : Type)
  | uri (text : List κ)
  | scheme (text : List κ)
  | user (text : Option (List κ))
  | host (text : List κ)
  | port (n : ℕ)
  | path (text : List κ)
  | query (text : List κ)
  | fragment (text : List κ)
  | segments (texts : List (List κ))

/-- The parts of a URI. -/
inductive UriPart
  | uri
  | scheme
  | user
  | host
  | port
  | path
  | query
  | fragment
  | segments

namespace UriOp

def step : UriOp κ → Uri κ → Uri κ
  | uri text, u => u.assign text
  | scheme text, u => u.assignScheme text
  | user text, u => { u with user := text }
  | host text, u => u.assignHost text
  | port n, u => u.assignPort n
  | path text, u => u.assignPath text
  | query text, u => u.assignQuery text
  | fragment text, u => u.assignFragment text
  | segments texts, u => { u with path_segments := some (u.path_segments.getD [] ++ texts) }

def kind : UriOp κ → UriPart
  | uri _ => .uri
  | scheme _ => .scheme
  | user _ => .user
  | host _ => .host
  | port _ => .port
  | path _ => .path
  | query _ => .query
  | fragment _ => .fragment
  | segments _ => .segments

def weight : UriOp κ → ℕ
  | segments texts => texts.length
  | _ => 0

end UriOp

def uriJournal : Journal (UriOp κ) UriPart (Uri κ) := ⟨UriOp.step, UriOp.kind, UriOp.weight⟩

/-- The number of segments that a URI has. -/
def Uri.segmentCount (u : Uri κ) : ℕ := (u.path_segments.getD []).length

/-- **A part of a URI is overwritten**, but for the segments of a path. -/
theorem uriJournal_lawful : (uriJournal (κ := κ)).Lawful Uri.segmentCount where
  overwrite o o' u hkind hweight := by
    cases o <;> cases o' <;> cases hkind
    case segments.segments texts texts' =>
      obtain rfl := List.length_eq_zero_iff.1 hweight
      simp [uriJournal, UriOp.step]
    all_goals rfl
  commute o o' u hkind := by
    cases o <;> cases o' <;> first | rfl | exact absurd rfl hkind
  size_step o u := by
    cases o
    case segments texts => simp [uriJournal, UriOp.step, UriOp.weight, Uri.segmentCount]
    all_goals rfl

/-! ### Answers that are final -/

/-- A rule below which there is neither `Force` nor a recursion. -/
def Rule.isPlain (g : Grammar) : Bool :=
  decide (g.ForceFree (· ≠ .Value_)) && decide ((reading octet).Regular g) &&
    (reading octet).quiet (fun _ => true) Name.settled 64 g

/-- The answer of such a rule is final. -/
theorem final_recognizer {g : Grammar} (hg : Rule.isPlain g = true) :
    Final (recognizer octet g) := by
  simp only [Rule.isPlain, Bool.and_eq_true, decide_eq_true_eq] at hg
  obtain ⟨⟨hfree, hregular⟩, hquiet⟩ := hg
  intro s t hs
  obtain ⟨r, hr, hv⟩ := exists_parses octet_inLookup s hregular hquiet
  have herror : r.error ≠ .incomplete := by
    intro hinc
    rw [ParseResult.verdict_eq_incomplete.2 hinc] at hv
    exact hs hv.symm
  have hlonger := parses_append type_forceFree hfree hr herror t
  rw [← hv, hlonger.verdict_eq octet_inLookup hregular hquiet]

theorem final_lit (x : Char) : Final (recognizer octet (lit x)) := by
  rw [recognizer_lit]
  intro s t hs
  cases s with
  | nil => exact absurd rfl hs
  | cons c s => rfl

/-! ### The rules of a URI without a path -/

/-- A rule that the visitor is called with nowhere. -/
theorem plain_unrecorded {g : Grammar} (hg : Final (recognizer octet g)) :
    Plain uriJournal (unrecorded octet g) (recognizer octet g) := .lift hg

/-- A rule whose text is assigned. -/
theorem plain_part (o : List Byte → UriOp Byte) {g : Grammar}
    {part : List Byte → Uri Byte → Uri Byte} (hg : Final (recognizer octet g))
    (hpart : ∀ text u, part text u = (o text).step u) (hweight : ∀ text, (o text).weight = 0) :
    Plain uriJournal (Meaning.record (recognizer octet g) part) (recognizer octet g) := by
  refine Logged.record (fun text => [o text]) hg hpart fun text => ?_
  simp [uriJournal, hweight]

/-- An optional part that a character leads in. -/
theorem plain_ledIn (x : Char) {g : Grammar} {m : Meaning Byte (Uri Byte)}
    (h : Plain uriJournal m (recognizer octet g)) :
    Plain uriJournal (optionally alt ((unrecorded octet (lit x)).seq m))
      (recognizer octet (.opt (.concat [lit x, g]))) := by
  rw [recognizer_opt, recognizer_pair]
  exact ((plain_unrecorded (final_lit x)).seq_plain h).opt

theorem plain_query : Plain uriJournal (recordQuery octet alt)
    (recognizer octet (.opt (.concat [lit '?', query]))) :=
  plain_ledIn '?' (plain_part .query (final_recognizer rfl) (fun _ _ => rfl) fun _ => rfl)

theorem plain_fragment : Plain uriJournal (recordFragment octet alt)
    (recognizer octet (.opt (.concat [lit '#', fragment]))) :=
  plain_ledIn '#' (plain_part .fragment (final_recognizer rfl) (fun _ _ => rfl) fun _ => rfl)

theorem plain_scheme : Plain uriJournal
    (Meaning.record (recognizer octet scheme) Uri.assignScheme) (recognizer octet scheme) :=
  plain_part .scheme (final_recognizer rfl) (fun _ _ => rfl) fun _ => rfl

theorem userinfoAt_run (s : List Byte) (u : Uri Byte) : recordUserinfoAt octet s u =
    .ok (recognizer octet userinfo_at s, { u with user := userText octet s }) := by
  rw [recordUserinfoAt, Meaning.finish, userText, userinfo_at, recognizer_pair]
  cases hs : recognizer octet userinfo s with
  | accept n =>
      have hat : unrecorded octet (lit '@') (s.drop n) (u.assignUser (s.take n)) =
          .ok (recognizer octet (lit '@') (s.drop n), u.assignUser (s.take n)) := rfl
      rw [bind_of_ok (seq_ok (record_of_accept hs u) hat), Recognizer.seq_of_accept hs]
      -- the user is reset where the `@` is missing
      cases recognizer octet (lit '@') (s.drop n) with
      | accept k =>
          rw [Recognizer.textOf, hs]
          rfl
      | incomplete => rfl
      | reject => rfl
  | incomplete =>
      rw [bind_of_ok (seq_of_incomplete (record_of_incomplete hs u)),
        Recognizer.seq_of_incomplete hs]
      rfl
  | reject =>
      rw [bind_of_ok (seq_of_reject (record_of_reject hs u)), Recognizer.seq_of_reject hs]
      rfl

theorem userText_append {s : List Byte} (hs : recognizer octet userinfo_at s ≠ .incomplete)
    (t : List Byte) : userText octet (s ++ t) = userText octet s := by
  have hfinal : Final (recognizer octet userinfo_at) := final_recognizer rfl
  have hinfo : Final (recognizer octet userinfo) := final_recognizer rfl
  rw [userText, userText, hfinal s t hs]
  cases hat : recognizer octet userinfo_at s with
  | accept k =>
      rw [userinfo_at, recognizer_pair, Recognizer.seq_eq_accept] at hat
      obtain ⟨n, -, hn, -, -⟩ := hat
      rw [Recognizer.textOf, Recognizer.textOf, hinfo s t (by simp [hn]), hn]
      exact congrArg some (Logs.take_append hn t)
  | incomplete => rfl
  | reject => rfl

/-- **The user** is assigned or reset, in any case. -/
theorem plain_userinfoAt :
    Plain uriJournal (recordUserinfoAt octet) (recognizer octet userinfo_at) :=
  Logged.always (o := fun s => .user (userText octet s)) (final_recognizer rfl) userinfoAt_run
    (fun _ t hs => congrArg UriOp.user (userText_append hs t)) (fun _ _ => rfl) fun _ => rfl

/-- **A port** is assigned where its number can be converted. -/
theorem plain_port : Plain uriJournal (recordPort octet) (recognizer octet port) := by
  have hport : Plain uriJournal (unrecorded octet port) (recognizer octet port) :=
    plain_unrecorded (final_recognizer rfl)
  refine hport.finish (fun text => (stoul (text.map octet)).map fun n => [.port n])
    (fun text u => ?_) fun text ops hops => ?_
  · cases stoul (text.map octet) with
    | error e => rfl
    | ok n => rfl
  · obtain ⟨n, -, rfl⟩ := map_ok hops
    simp [uriJournal, UriOp.weight]

theorem plain_hostport :
    Plain uriJournal (recordHostport octet alt) (recognizer octet hostport) := by
  have hhost : Plain uriJournal (Meaning.record (recognizer octet host) Uri.assignHost)
      (recognizer octet host) :=
    plain_part .host (final_recognizer rfl) (fun _ _ => rfl) fun _ => rfl
  rw [hostport, recognizer_pair]
  exact hhost.seq_plain (plain_ledIn ':' plain_port)

/-- **An authority** adds nothing. -/
theorem plain_authority :
    Plain uriJournal (recordAuthority octet alt) (recognizer octet authority) := by
  have hserver : Plain uriJournal (recordServer octet alt) (recognizer octet server) := by
    rw [server, recognizer_opt, recognizer_pair, recognizer_opt]
    exact (plain_userinfoAt.opt.seq_plain plain_hostport).opt
  have hname : Plain uriJournal (unrecorded octet reg_name) (recognizer octet reg_name) :=
    plain_unrecorded (final_recognizer rfl)
  rw [authority, recognizer_choice]
  exact hserver.alt_plain hname

/-! ### The segments of a path -/

/-- The segments that are appended one by one. -/
def segmentJournal : Journal (List κ) Unit (Uri κ) :=
  ⟨Uri.emplaceSegment, fun _ => (), fun _ => 1⟩

theorem perform_segments (texts : List (List κ)) (u : Uri κ) :
    (UriOp.segments texts).step u = segmentJournal.perform texts u.mutablePathSegments := by
  have hperform (base : List (List κ)) (u : Uri κ) (h : u.path_segments = some base) :
      segmentJournal.perform texts u = { u with path_segments := some (base ++ texts) } := by
    induction texts generalizing base u with
    | nil => rw [List.append_nil, ← h]; rfl
    | cons text texts ih =>
        have hnext : (Uri.emplaceSegment text u).path_segments = some (base ++ [text]) := by
          rw [Uri.emplaceSegment, h]
          rfl
        rw [Journal.perform_cons]
        refine (ih _ _ hnext).trans ?_
        rw [List.append_assoc]
        rfl
  exact (hperform _ u.mutablePathSegments rfl).symm

theorem adds_segments (texts : List (List κ)) :
    texts.length ≠ 0 ↔ (segmentJournal (κ := κ)).Adds texts := by
  cases texts with
  | nil => simp
  | cons text texts => simp [segmentJournal]

theorem final_segment : Final (recognizer octet Uri.Grammar.segment) := final_recognizer rfl

theorem lift_eq_record {σ : Type} (f : Recognizer κ) :
    (lift f : Meaning κ σ) = Meaning.record f fun _ st => st := by
  funext s st
  rw [lift_apply, Meaning.record]
  cases f s <;> rfl

/-- The text of a path is assigned behind its segments. -/
theorem logged_path {m : Meaning Byte (Uri Byte)} {f : Recognizer Byte} {D : List Byte → Prop}
    (h : Logged uriJournal (m.after Uri.mutablePathSegments) f D) :
    Logged uriJournal (recordPath m) f D := by
  change Logged uriJournal ((m.after Uri.mutablePathSegments).finish
    (fun text u => .ok (u.assignPath text)) id) f D
  refine h.finish (fun text => .ok [.path text]) (fun _ _ => rfl) fun _ ops hops => ?_
  cases hops
  simp [uriJournal, UriOp.weight]

/-- The text up to the first segment of a path. -/
def slashSegment : Grammar := .concat [lit '/', Uri.Grammar.segment]

/-- **A path** adds something as soon as its first segment is read. -/
theorem logged_absPath : Logged uriJournal (recordAbsPath octet) (recognizer octet abs_path)
    (Accepts (recognizer octet slashSegment)) := by
  have hsegment : Logged segmentJournal
      (Meaning.record (recognizer octet Uri.Grammar.segment) Uri.emplaceSegment)
      (recognizer octet Uri.Grammar.segment) (Accepts (recognizer octet Uri.Grammar.segment)) :=
    Logged.record_adds (fun text => [text]) final_segment (fun _ _ => rfl) fun text => by
      simp [segmentJournal]
  have hslash : Plain segmentJournal (unrecorded octet (lit '/')) (recognizer octet (lit '/')) :=
    .lift (final_lit '/')
  have hmore := (hslash.plain_seq_accepts hsegment).loop fun s n hn => ⟨n, hn⟩
  have hall : Logged segmentJournal _ _ (Accepts (recognizer octet Uri.Grammar.segment)) :=
    (hsegment.seq hmore).congr fun s => or_iff_left_of_imp fun ⟨n, hn, _⟩ => ⟨n, hn⟩
  have hcollected : Logged uriJournal _ _ (Behind _ _) :=
    Logged.collect (fun _ u => u) Uri.mutablePathSegments (fun _ => UriOp.segments) (final_lit '/')
      hall (fun _ texts u => perform_segments texts u) (fun _ => rfl) (fun _ _ _ _ => rfl)
      fun _ texts => adds_segments texts
  have hpath := logged_path hcollected
  rw [← lift_eq_record] at hpath
  rw [abs_path, path_segments, recognizer_pair, recognizer_pair, recognizer_repeat, recognizer_pair]
  refine hpath.congr fun s => ?_
  rw [slashSegment, recognizer_pair, behind_accepts]

/-! ### Targets -/

/-- `"//" authority` -/
def slashesAuthority : Grammar := .concat [lit '/', lit '/', authority]

/-- The text up to the first segment of the path in a `hier_part`. -/
def hierSegment : Grammar := .concat [.opt slashesAuthority, lit '/', Uri.Grammar.segment]

/-- The text up to the first segment of the path in a target. -/
def targetSegment : Grammar :=
  .concat [.opt (.concat [scheme, lit ':']), .opt slashesAuthority, lit '/', Uri.Grammar.segment]

theorem accepts_opt_seq {f g : Recognizer κ} {s : List κ} :
    Accepts (f.opt.seq g) s ↔ Behind f (Accepts g) s ∨ f s = .reject ∧ Accepts g s := by
  rw [← behind_accepts]
  cases hs : f s with
  | accept n =>
      have hopt : f.opt s = .accept n := (Recognizer.alt_of_ne_reject (by simp [hs])).trans hs
      rw [behind_of_accept hopt, behind_of_accept hs]
      simp
  | incomplete =>
      have hopt : f.opt s = .incomplete := Recognizer.alt_of_incomplete hs
      simp [Behind, hs, hopt]
  | reject =>
      have hopt : f.opt s = .accept 0 := Recognizer.alt_of_reject hs
      rw [behind_of_accept hopt]
      simp [Behind, hs]

theorem netPath_reject_iff {s : List κ} {toInt : κ → ℤ} :
    recognizer toInt net_path s = .reject ↔ recognizer toInt slashesAuthority s = .reject := by
  rw [net_path, slashesAuthority, recognizer_concat, recognizer_concat, recognizer_pair,
    recognizer_concat, recognizer_pair, ← Recognizer.seq_assoc, ← Recognizer.seq_assoc,
    recognizer_opt, Recognizer.seq_eq_reject_iff (Recognizer.lenient_opt _), Recognizer.seq_assoc]

theorem logged_netPath : Logged uriJournal (recordNetPath octet alt) (recognizer octet net_path)
    (Behind (recognizer octet slashesAuthority) (Accepts (recognizer octet slashSegment))) := by
  have hslash : Plain uriJournal (unrecorded octet (lit '/')) (recognizer octet (lit '/')) :=
    plain_unrecorded (final_lit '/')
  rw [net_path, slashesAuthority, recognizer_concat, recognizer_concat, recognizer_pair,
    recognizer_opt, recognizer_concat, recognizer_pair]
  refine (hslash.plain_seq (hslash.plain_seq
    (plain_authority.plain_seq logged_absPath.opt))).congr fun s => ?_
  rw [← behind_behind]
  exact Behind.congr fun s => behind_behind

/-- **A `hier_part`** adds something as soon as the first segment of its path is read. -/
theorem logged_hierPart : Logged uriJournal (recordHierPart octet alt) (recognizer octet hier_part)
    (Accepts (recognizer octet hierSegment)) := by
  rw [hier_part, recognizer_pair, recognizer_choice]
  refine ((logged_netPath.alt logged_absPath).seq_plain plain_query).congr fun s => ?_
  rw [hierSegment, recognizer_concat, recognizer_opt, netPath_reject_iff]
  exact accepts_opt_seq.symm

theorem slash_of_accepts {s : List Byte} (h : Accepts (recognizer octet hierSegment) s) :
    ∃ n, recognizer octet (lit '/') s = .accept n := by
  rw [hierSegment, recognizer_concat, recognizer_opt, accepts_opt_seq] at h
  rcases h with ⟨j, hj, -⟩ | ⟨-, j, hj⟩
  · rw [slashesAuthority, recognizer_concat, Recognizer.seq_eq_accept] at hj
    obtain ⟨n, -, hn, -, -⟩ := hj
    exact ⟨n, hn⟩
  · rw [recognizer_pair, Recognizer.seq_eq_accept] at hj
    obtain ⟨n, -, hn, -, -⟩ := hj
    exact ⟨n, hn⟩

theorem slash_reject_of_target {s : List Byte} (h : (recognizer octet hier_part).seq
    (recognizer octet (.opt (.concat [lit '#', fragment]))) s = .reject) :
    recognizer octet (lit '/') s = .reject := by
  have hlenient : (recognizer octet (.opt (.concat [lit '#', fragment]))).Lenient := by
    rw [recognizer_opt]
    exact Recognizer.lenient_opt _
  have hlenient' : (recognizer octet (.opt (.concat [lit '?', query]))).Lenient := by
    rw [recognizer_opt]
    exact Recognizer.lenient_opt _
  rw [Recognizer.seq_eq_reject_iff hlenient, hier_part, recognizer_pair,
    Recognizer.seq_eq_reject_iff hlenient', recognizer_choice] at h
  by_cases hnet : recognizer octet net_path s = .reject
  · rw [Recognizer.alt_of_reject hnet, absPath_eq_reject_iff] at h
    exact h
  · rw [Recognizer.alt_of_ne_reject hnet] at h
    exact absurd h hnet

/-- **A target** adds something as soon as the first segment of its path is read. -/
theorem logged_requestURI :
    Logged uriJournal (recordRequestURI octet alt) (recognizer octet Request_URI)
      (Accepts (recognizer octet targetSegment)) := by
  have hstar : Plain uriJournal (unrecorded octet Http.Grammar.Star)
      (recognizer octet Http.Grammar.Star) :=
    plain_unrecorded (final_recognizer rfl)
  have hopaque : Plain uriJournal (unrecorded octet opaque_part) (recognizer octet opaque_part) :=
    plain_unrecorded (final_recognizer rfl)
  have habsolute : Logged uriJournal (recordAbsoluteURI octet alt) (recognizer octet absoluteURI)
      (Behind (recognizer octet (.concat [scheme, lit ':']))
        (Accepts (recognizer octet hierSegment))) := by
    rw [absoluteURI, recognizer_concat, recognizer_pair, recognizer_choice, recognizer_pair]
    exact (plain_scheme.plain_seq ((plain_unrecorded (final_lit ':')).plain_seq
      (logged_hierPart.alt_plain hopaque))).congr fun s => behind_behind
  rw [Request_URI, recognizer_either, recognizer_either, recognizer_either, recognizer_choice,
    recognizer_pair]
  refine ((logged_hierPart.seq_plain plain_fragment).alt (hstar.alt (habsolute.alt
    (logged_absPath.alt_plain plain_authority)))).congr fun s => ?_
  rw [targetSegment, recognizer_concat, recognizer_opt]
  refine Iff.trans ?_ (accepts_opt_seq (f := recognizer octet (.concat [scheme, lit ':']))).symm
  constructor
  · rintro (hhier | ⟨hreject, hfalse | ⟨-, habs | ⟨-, hpath⟩⟩⟩)
    · -- a slash begins no scheme
      obtain ⟨n, hn⟩ := slash_of_accepts hhier
      have hscheme := scheme_reject (by decide) hn
      rw [recognizer_pair]
      exact .inr ⟨Recognizer.seq_of_reject hscheme, hhier⟩
    · exact hfalse.elim
    · exact .inl habs
    · -- where a path could begin, the first alternative does not reject
      obtain ⟨j, hj⟩ := hpath
      rw [slashSegment, recognizer_pair, Recognizer.seq_eq_accept] at hj
      obtain ⟨n, -, hn, -, -⟩ := hj
      have hslash := slash_reject_of_target hreject
      rw [hslash] at hn
      cases hn
  · rintro (habs | ⟨-, hhier⟩)
    · have hscheme : ∃ n, recognizer octet scheme s = .accept n := by
        obtain ⟨j, hj, -⟩ := habs
        rw [recognizer_pair, Recognizer.seq_eq_accept] at hj
        obtain ⟨n, -, hn, -, -⟩ := hj
        exact ⟨n, hn⟩
      obtain ⟨n, hn⟩ := hscheme
      have hpath := absPath_eq_reject_iff.2 (lit_reject_of_scheme (by decide) hn)
      have hstar' : recognizer octet Http.Grammar.Star s = .reject := by
        rw [Http.Grammar.Star, recognizer_forwardRef _ _ rfl]
        exact lit_reject_of_scheme (by decide) hn
      exact .inr ⟨Recognizer.seq_of_reject (hierPart_reject hpath), .inr ⟨hstar', .inl habs⟩⟩
    · exact .inl hhier

end Hittop
