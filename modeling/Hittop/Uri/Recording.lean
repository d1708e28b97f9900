/-
**What the visitor of a URI records**, rule by rule.

The parse of a URI with `UriFieldParseVisitor` is put together from recognizers and from the
visitor's assignments.  Ordered choice is a parameter of the definitions: the parser keeps the
assignments of an alternative that failed, a reader of the grammar would expect them to be undone.

Main definitions:

* `Hittop.recordReference`, `Hittop.recordRequestURI` — the parse of a `URI_reference` and that of a
  `Request_URI`, and those of the rules below them.

Main results:

* `Hittop.meaning_reference`, `Hittop.meaning_requestURI` — the parser does what is said here;
* `Hittop.meaning_make` — so does the parse with `MakeUriParseVisitor`.
-/

import Hittop.Grammars
import Hittop.Recording
import Hittop.Uri.Visitor

set_option relaxedAutoImplicit false
set_option autoImplicit false

namespace Hittop

open Uri.Grammar Meaning

variable {κ ν σ : Type}

/-! ### The recording, from the leaves up -/

section Record

variable (toInt : κ → ℤ) (choose : Meaning κ (Uri κ) → Meaning κ (Uri κ) → Meaning κ (Uri κ))

/-- A rule that the visitor is called with nowhere. -/
def unrecorded (g : Grammar) : Meaning κ (Uri κ) := lift (recognizer toInt g)

/-- `m`, or nothing. -/
def optionally (m : Meaning κ (Uri κ)) : Meaning κ (Uri κ) := choose m (lift .eps)

/-- `userinfo_at`: the user is assigned by `userinfo` and reset where the `@` is missing. -/
def recordUserinfoAt : Meaning κ (Uri κ) :=
  ((record (recognizer toInt userinfo) Uri.assignUser).seq (unrecorded toInt (lit '@'))).finish
    (fun _ u => .ok u) Uri.resetUser

def recordPort : Meaning κ (Uri κ) :=
  (unrecorded toInt port).finish
    (fun text u => (stoul (text.map toInt)).map fun n => u.assignPort n) id

def recordHostport : Meaning κ (Uri κ) :=
  (record (recognizer toInt host) Uri.assignHost).seq
    (optionally choose ((unrecorded toInt (lit ':')).seq (recordPort toInt)))

def recordServer : Meaning κ (Uri κ) :=
  optionally choose
    ((optionally choose (recordUserinfoAt toInt)).seq (recordHostport toInt choose))

def recordAuthority : Meaning κ (Uri κ) :=
  choose (recordServer toInt choose) (unrecorded toInt reg_name)

/-- `abs_path`, with the visitor of the segments. -/
def recordSegments : Meaning κ (Uri κ) :=
  (unrecorded toInt (lit '/')).seq
    ((record (recognizer toInt Uri.Grammar.segment) Uri.emplaceSegment).seq
      ((unrecorded toInt (lit '/')).seq
        (record (recognizer toInt Uri.Grammar.segment) Uri.emplaceSegment)).loop)

/-- `visit_path`. -/
def recordPath (m : Meaning κ (Uri κ)) : Meaning κ (Uri κ) :=
  (m.finish (fun text u => .ok (u.assignPath text)) id).after Uri.mutablePathSegments

def recordAbsPath : Meaning κ (Uri κ) := recordPath (recordSegments toInt)

def recordRelPath : Meaning κ (Uri κ) :=
  recordPath ((unrecorded toInt rel_segment).seq (optionally choose (recordSegments toInt)))

def recordNetPath : Meaning κ (Uri κ) :=
  (unrecorded toInt (lit '/')).seq ((unrecorded toInt (lit '/')).seq
    ((recordAuthority toInt choose).seq (optionally choose (recordAbsPath toInt))))

def recordQuery : Meaning κ (Uri κ) :=
  optionally choose
    ((unrecorded toInt (lit '?')).seq (record (recognizer toInt query) Uri.assignQuery))

def recordFragment : Meaning κ (Uri κ) :=
  optionally choose
    ((unrecorded toInt (lit '#')).seq (record (recognizer toInt fragment) Uri.assignFragment))

def recordHierPart : Meaning κ (Uri κ) :=
  (choose (recordNetPath toInt choose) (recordAbsPath toInt)).seq (recordQuery toInt choose)

def recordAbsoluteURI : Meaning κ (Uri κ) :=
  (record (recognizer toInt scheme) Uri.assignScheme).seq
    ((unrecorded toInt (lit ':')).seq
      (choose (recordHierPart toInt choose) (unrecorded toInt opaque_part)))

def recordRelativeURI : Meaning κ (Uri κ) :=
  (choose (recordNetPath toInt choose)
    (choose (recordAbsPath toInt) (recordRelPath toInt choose))).seq (recordQuery toInt choose)

/-- `URI_reference` -/
def recordReference : Meaning κ (Uri κ) :=
  (optionally choose
    (choose (recordAbsoluteURI toInt choose) (recordRelativeURI toInt choose))).seq
    (recordFragment toInt choose)

/-- `Request_URI` -/
def recordRequestURI : Meaning κ (Uri κ) :=
  choose ((recordHierPart toInt choose).seq (recordFragment toInt choose))
    (choose (unrecorded toInt Http.Grammar.Star)
      (choose (recordAbsoluteURI toInt choose)
        (choose (recordAbsPath toInt) (recordAuthority toInt choose))))

end Record

/-! ### What the rules leave alone -/

section Silent

variable (toInt : κ → ℤ) {choose : Meaning κ (Uri κ) → Meaning κ (Uri κ) → Meaning κ (Uri κ)}
  {β : Type} {get : Uri κ → β}

/-- Ordered choice, with or without undoing what a rejected alternative has done. -/
def IsChoice (choose : Meaning κ (Uri κ) → Meaning κ (Uri κ) → Meaning κ (Uri κ)) : Prop :=
  choose = Meaning.alt ∨ choose = Meaning.orElse

theorem isChoice_alt :
    IsChoice (Meaning.alt : Meaning κ (Uri κ) → Meaning κ (Uri κ) → Meaning κ (Uri κ)) := .inl rfl

theorem isChoice_orElse :
    IsChoice (Meaning.orElse : Meaning κ (Uri κ) → Meaning κ (Uri κ) → Meaning κ (Uri κ)) :=
      .inr rfl

theorem silent_choose (hc : IsChoice choose) {m m' : Meaning κ (Uri κ)} {f f' : Recognizer κ}
    (h : Silent get m f) (h' : Silent get m' f') : Silent get (choose m m') (f.alt f') := by
  rcases hc with rfl | rfl
  · exact h.alt h'
  · exact h.orElse h'

theorem silent_optionally (hc : IsChoice choose) {m : Meaning κ (Uri κ)} {f : Recognizer κ}
    (h : Silent get m f) : Silent get (optionally choose m) f.opt :=
  silent_choose hc h (Silent.lift .eps)

theorem silent_userinfoAt (huser : ∀ text u, get (Uri.assignUser text u) = get u)
    (hreset : ∀ u, get u.resetUser = get u) :
    Silent get (recordUserinfoAt toInt) (recognizer toInt userinfo_at) := by
  rw [userinfo_at, recognizer_pair]
  exact ((Silent.record huser).seq (Silent.lift _)).finish (fun _ _ => rfl) hreset

/-- Nothing that a path assigns belongs to the part. -/
structure PathFree (get : Uri κ → β) : Prop where
  path : ∀ text u, get (Uri.assignPath text u) = get u
  segments : ∀ u, get u.mutablePathSegments = get u
  segment : ∀ text u, get (Uri.emplaceSegment text u) = get u

theorem silent_segments (h : ∀ text u, get (Uri.emplaceSegment text u) = get u) :
    Silent get (recordSegments toInt) (recognizer toInt abs_path) := by
  rw [abs_path, path_segments, recognizer_pair, recognizer_pair, recognizer_repeat, recognizer_pair]
  have hsegment : Silent get
      (Meaning.record (recognizer toInt Uri.Grammar.segment) Uri.emplaceSegment)
      (recognizer toInt Uri.Grammar.segment) := Silent.record h
  exact (Silent.lift _).seq (hsegment.seq ((Silent.lift _).seq hsegment).loop)

variable (hpath : PathFree get)
include hpath

theorem silent_path {m : Meaning κ (Uri κ)} {f : Recognizer κ} (h : Silent get m f) :
    Silent get (recordPath m) f :=
  (h.finish hpath.path fun _ => rfl).after hpath.segments

theorem silent_absPath : Silent get (recordAbsPath toInt) (recognizer toInt abs_path) :=
  silent_path hpath (silent_segments toInt hpath.segment)

theorem silent_relPath (hc : IsChoice choose) :
    Silent get (recordRelPath toInt choose) (recognizer toInt rel_path) := by
  rw [rel_path, recognizer_pair, recognizer_opt]
  exact silent_path hpath
    ((Silent.lift _).seq (silent_optionally hc (silent_segments toInt hpath.segment)))

omit hpath in
/-- An optional part that a character leads in. -/
theorem silent_ledIn (hc : IsChoice choose) (c : Char) (g : Grammar)
    {part : List κ → Uri κ → Uri κ} (h : ∀ text u, get (part text u) = get u) :
    Silent get (optionally choose ((unrecorded toInt (lit c)).seq
        (Meaning.record (recognizer toInt g) part)))
      (recognizer toInt (.opt (.concat [lit c, g]))) := by
  rw [recognizer_opt, recognizer_pair]
  exact silent_optionally hc ((Silent.lift _).seq (Silent.record h))

end Silent

@[simp] theorem optionally_alt (m : Meaning κ (Uri κ)) : optionally alt m = m.opt := rfl

/-! ### The parser records this -/

section Parser

variable {toInt : κ → ℤ} {V : Visitors Name Cctype κ ν σ} {e : UriVisitor → ν}
  {p : Pointer σ (Uri κ)} (hlookup : InLookup toInt)
  (hV : ∀ v g, V.operator (e v) g = v.operator toInt e p g)

section

include hV

/-- A rule below which the visitor is called with nothing. -/
theorem meaning_unrecorded {v : UriVisitor} (g : Grammar)
    (hg : (reading toInt).Regular g) (hself : (v.operator toInt e p g).isNone = true)
    (hquiet : (reading toInt).quiet (fun g => (v.operator toInt e p g).isNone)
      (fun _ => false) 64 g = true) :
    meaning (reading toInt) V (some (e v)) g = (unrecorded toInt g).through p := by
  rw [unrecorded, through_lift]
  refine meaning_some_recognizer (fun g hg => ?_) (fun m hm => ?_) hg hself hquiet
  · rw [hV]
    simpa using hg
  · cases hm

/-- A rule whose text the visitor assigns. -/
theorem meaning_part {v : UriVisitor} {g : Grammar} {part : List κ → Uri κ → Uri κ}
    (h : v.operator toInt e p g = p.visitPart part)
    (hnone : meaning (reading toInt) V none g = lift (recognizer toInt g)) :
    meaning (reading toInt) V (some (e v)) g = (record (recognizer toInt g) part).through p := by
  rw [← finish_lift]
  exact meaning_call_through p ((hV v g).trans h) (hnone.trans (through_lift p _).symm)

end

include hlookup hV

theorem meaning_userinfoAt :
    meaning (reading toInt) V (some (e .field)) userinfo_at =
      (recordUserinfoAt toInt).through p := by
  refine meaning_call_through p ((hV _ _).trans rfl) ?_
  rw [userinfo_at, meaning_some_pair, meaning_unrecorded hV (lit '@') (of_decide_eq_true rfl)
    rfl rfl, meaning_part hV (v := .userinfo) (g := userinfo) rfl, through_seq]
  · exact meaning_none_recognizer hlookup (n := 64) (of_decide_eq_true rfl) rfl
  · exact (hV _ _).trans rfl

theorem meaning_port :
    meaning (reading toInt) V (some (e .field)) port = (recordPort toInt).through p := by
  refine meaning_call_through p ((hV _ _).trans rfl) ?_
  rw [meaning_none_recognizer hlookup (n := 64) (of_decide_eq_true rfl) rfl, unrecorded,
    through_lift]

theorem meaning_host : meaning (reading toInt) V (some (e .field)) host =
    (record (recognizer toInt host) Uri.assignHost).through p :=
  meaning_part hV (v := .field) rfl
    (meaning_none_recognizer hlookup (n := 64) (of_decide_eq_true rfl) rfl)

theorem meaning_hostport : meaning (reading toInt) V (some (e .field)) hostport =
    (recordHostport toInt alt).through p := by
  rw [hostport, meaning_some_pair, meaning_some_opt, meaning_some_pair, meaning_host hlookup hV,
    meaning_port hlookup hV, meaning_unrecorded hV (lit ':') (of_decide_eq_true rfl) rfl rfl]
  · simp [recordHostport]
  all_goals exact (hV _ _).trans rfl

theorem meaning_server : meaning (reading toInt) V (some (e .field)) server =
    (recordServer toInt alt).through p := by
  rw [server, meaning_some_opt, meaning_some_pair, meaning_some_opt, meaning_userinfoAt hlookup hV,
    meaning_hostport hlookup hV]
  · simp [recordServer]
  all_goals exact (hV _ _).trans rfl

theorem meaning_authority : meaning (reading toInt) V (some (e .field)) authority =
    (recordAuthority toInt alt).through p := by
  rw [authority, meaning_some_choice, meaning_server hlookup hV,
    meaning_unrecorded hV reg_name (of_decide_eq_true rfl) rfl rfl]
  · simp [recordAuthority]
  all_goals exact (hV _ _).trans rfl

/-- `abs_path` under the visitor of the segments. -/
theorem meaning_segments : meaning (reading toInt) V (some (e .segment)) abs_path =
    (recordSegments toInt).through p := by
  have hsegment : meaning (reading toInt) V (some (e .segment)) Uri.Grammar.segment =
      (record (recognizer toInt Uri.Grammar.segment) Uri.emplaceSegment).through p :=
    meaning_part hV (v := .segment) rfl
      (meaning_none_recognizer hlookup (n := 64) (of_decide_eq_true rfl) rfl)
  rw [abs_path, meaning_some_pair, path_segments, meaning_some_pair, meaning_some_repeat,
    meaning_some_pair, hsegment, meaning_unrecorded hV (lit '/') (of_decide_eq_true rfl) rfl rfl]
  · simp [recordSegments]
  all_goals exact (hV _ _).trans rfl

theorem meaning_absPath : meaning (reading toInt) V (some (e .field)) abs_path =
    (recordAbsPath toInt).through p := by
  rw [recordAbsPath, recordPath]
  exact meaning_call_through p ((hV _ _).trans rfl) (meaning_segments hlookup hV)

theorem meaning_relPath : meaning (reading toInt) V (some (e .field)) rel_path =
    (recordRelPath toInt alt).through p := by
  rw [recordRelPath, recordPath]
  refine meaning_call_through p ((hV _ _).trans rfl) ?_
  rw [rel_path, meaning_some_pair, meaning_some_opt, meaning_segments hlookup hV,
    meaning_unrecorded hV rel_segment (of_decide_eq_true rfl) rfl rfl]
  · simp
  all_goals exact (hV _ _).trans rfl

theorem meaning_netPath : meaning (reading toInt) V (some (e .field)) net_path =
    (recordNetPath toInt alt).through p := by
  rw [net_path, meaning_some_concat, meaning_some_concat, meaning_some_pair, meaning_some_opt,
    meaning_authority hlookup hV, meaning_absPath hlookup hV,
    meaning_unrecorded hV (lit '/') (of_decide_eq_true rfl) rfl rfl]
  · simp [recordNetPath]
  all_goals exact (hV _ _).trans rfl

omit hlookup in
/-- An optional part that a character leads in. -/
theorem meaning_ledIn {c : Char} {g : Grammar} {part : List κ → Uri κ → Uri κ}
    (hlit : meaning (reading toInt) V (some (e .field)) (lit c) =
      (unrecorded toInt (lit c)).through p)
    (hpart : meaning (reading toInt) V (some (e .field)) g =
      (record (recognizer toInt g) part).through p)
    (hopt : (UriVisitor.field.operator toInt e p (.opt (.concat [lit c, g]))).isNone = true)
    (hpair : (UriVisitor.field.operator toInt e p (.concat [lit c, g])).isNone = true) :
    meaning (reading toInt) V (some (e .field)) (.opt (.concat [lit c, g])) =
      (optionally alt ((unrecorded toInt (lit c)).seq
        (record (recognizer toInt g) part))).through p := by
  rw [meaning_some_opt, meaning_some_pair, hlit, hpart]
  · simp
  · rw [hV]
    simpa using hpair
  · rw [hV]
    simpa using hopt
  · exact (hV _ _).trans rfl

theorem meaning_query : meaning (reading toInt) V (some (e .field))
    (.opt (.concat [lit '?', query])) =
    (recordQuery toInt alt).through p :=
  meaning_ledIn hV (meaning_unrecorded hV (lit '?') (of_decide_eq_true rfl) rfl rfl)
    (meaning_part hV (v := .field) rfl
      (meaning_none_recognizer hlookup (n := 64) (of_decide_eq_true rfl) rfl)) rfl rfl

theorem meaning_fragment :
    meaning (reading toInt) V (some (e .field)) (.opt (.concat [lit '#', fragment])) =
      (recordFragment toInt alt).through p :=
  meaning_ledIn hV (meaning_unrecorded hV (lit '#') (of_decide_eq_true rfl) rfl rfl)
    (meaning_part hV (v := .field) rfl
      (meaning_none_recognizer hlookup (n := 64) (of_decide_eq_true rfl) rfl)) rfl rfl

theorem meaning_hierPart : meaning (reading toInt) V (some (e .field)) hier_part =
    (recordHierPart toInt alt).through p := by
  rw [hier_part, meaning_some_pair, meaning_some_choice, meaning_netPath hlookup hV,
    meaning_absPath hlookup hV, meaning_query hlookup hV]
  · simp [recordHierPart]
  all_goals exact (hV _ _).trans rfl

theorem meaning_absoluteURI : meaning (reading toInt) V (some (e .field)) absoluteURI =
    (recordAbsoluteURI toInt alt).through p := by
  rw [absoluteURI, meaning_some_concat, meaning_some_pair, meaning_some_choice,
    meaning_hierPart hlookup hV, meaning_part hV (v := .field) (g := scheme) rfl,
    meaning_unrecorded hV (lit ':') (of_decide_eq_true rfl) rfl rfl,
    meaning_unrecorded hV opaque_part (of_decide_eq_true rfl) rfl rfl]
  · simp [recordAbsoluteURI]
  · exact meaning_none_recognizer hlookup (n := 64) (of_decide_eq_true rfl) rfl
  all_goals exact (hV _ _).trans rfl

theorem meaning_relativeURI : meaning (reading toInt) V (some (e .field)) relativeURI =
    (recordRelativeURI toInt alt).through p := by
  rw [relativeURI, meaning_some_pair, meaning_some_either, meaning_some_choice,
    meaning_netPath hlookup hV, meaning_absPath hlookup hV, meaning_relPath hlookup hV,
    meaning_query hlookup hV]
  · simp [recordRelativeURI]
  all_goals exact (hV _ _).trans rfl

/-- **The parse of a `URI_reference`** with `UriFieldParseVisitor`. -/
theorem meaning_reference : meaning (reading toInt) V (some (e .field)) URI_reference =
    (recordReference toInt alt).through p := by
  rw [URI_reference, meaning_some_pair, meaning_some_opt, meaning_some_choice,
    meaning_absoluteURI hlookup hV, meaning_relativeURI hlookup hV, meaning_fragment hlookup hV]
  · simp [recordReference]
  all_goals exact (hV _ _).trans rfl

/-- **The parse of a `Request_URI`** with `UriFieldParseVisitor`. -/
theorem meaning_requestURI :
    meaning (reading toInt) V (some (e .field)) Http.Grammar.Request_URI =
      (recordRequestURI toInt alt).through p := by
  rw [Http.Grammar.Request_URI, meaning_some_either, meaning_some_either, meaning_some_either,
    meaning_some_choice, meaning_some_pair, meaning_hierPart hlookup hV,
    meaning_fragment hlookup hV, meaning_absoluteURI hlookup hV, meaning_absPath hlookup hV,
    meaning_authority hlookup hV]
  · have hstar : meaning (reading toInt) V (some (e .field)) Http.Grammar.Star =
        (unrecorded toInt Http.Grammar.Star).through p := by
      have hlit := meaning_unrecorded hV (v := .field) (lit '*') (of_decide_eq_true rfl) rfl rfl
      rw [meaning_some ((hV _ _).trans rfl)] at hlit
      rw [Http.Grammar.Star, meaning_some_forwardRef ((hV _ _).trans rfl)]
      exact hlit
    simp [hstar, recordRequestURI]
  all_goals exact (hV _ _).trans rfl

/-- **The parse of a `URI_reference`** with `MakeUriParseVisitor`. -/
theorem meaning_make : meaning (reading toInt) V (some (e .make)) URI_reference =
    (((recordReference toInt alt).finish (fun text u => .ok (u.assign text)) id).after id).through
      p :=
  meaning_call_through p ((hV _ _).trans rfl) (meaning_reference hlookup hV)

end Parser

end Hittop
