/-
**Fields of a URI that an abandoned alternative has left behind.**

`UriFieldParseVisitor` assigns a field as soon as the rule of the field has succeeded.  Ordered
choice does not undo that when the alternative fails later on.  Read with a choice that does undo
it, the grammar says which fields a reference has.  The two differ in the scheme, where an absolute
URI is begun and not completed, in the user, where no host follows the at-sign, and in the sequence
of the segments, which is made before an attempt at a path; everything else is assigned where
nothing can fail any more.

Main definitions:

* `Hittop.NoStale` — the fields are those of the alternative finally taken;
* `Hittop.authorityAt`, `Hittop.pathAt` — what an authority and a path are read from.

Main results:

* `Hittop.tracks_reference` — but for the scheme and the user, and for an empty sequence of
  segments, undoing makes no difference;
* `Hittop.sets_scheme_alt`, `Hittop.sets_user_server_alt`, … — the scheme and the user with and
  without undoing;
* `Hittop.leaves_reference`, `Hittop.sets_segments_reference` — so for the sequence of segments;
* `Hittop.no_stale_iff` — when no field is left behind.
-/

import Hittop.Effects
import Hittop.Uri.Reading
import Hittop.Uri.Recording

set_option relaxedAutoImplicit false
set_option autoImplicit false

namespace Hittop

open Uri.Grammar Meaning

variable {κ β : Type} (toInt : κ → ℤ) {get : Uri κ → β}
  {choose : Meaning κ (Uri κ) → Meaning κ (Uri κ) → Meaning κ (Uri κ)}

/-! ### Parts that the parse leaves alone -/

theorem keeps_choose (hc : IsChoice choose) {m m' : Meaning κ (Uri κ)} {f f' : Recognizer κ}
    (h : Keeps get m f) (h' : Keeps get m' f') : Keeps get (choose m m') (f.alt f') := by
  rcases hc with rfl | rfl
  · exact h.alt h'
  · exact h.orElse h'

theorem keeps_lift (f : Recognizer κ) : Keeps get (Meaning.lift f) f := (Silent.lift f).keeps

theorem keeps_optionally (hc : IsChoice choose) {m : Meaning κ (Uri κ)} {f : Recognizer κ}
    (h : Keeps get m f) : Keeps get (optionally choose m) f.opt :=
  keeps_choose hc h (keeps_lift .eps)

/-- A part to which neither what a path assigns belongs nor the host, the port, the query or the
fragment. -/
structure Untouched (get : Uri κ → β) : Prop extends PathFree get where
  host : ∀ text u, get (Uri.assignHost text u) = get u
  port : ∀ n u, get (Uri.assignPort n u) = get u
  query : ∀ text u, get (Uri.assignQuery text u) = get u
  fragment : ∀ text u, get (Uri.assignFragment text u) = get u

section Authority

variable (hc : IsChoice choose) (hhost : ∀ text u, get (Uri.assignHost text u) = get u)
  (hport : ∀ n u, get (Uri.assignPort n u) = get u)
include hport

theorem keeps_port : Keeps get (recordPort toInt) (recognizer toInt port) := by
  refine (keeps_lift _).finish (fun text u u' hu => ?_) fun _ => rfl
  cases hn : stoul (text.map toInt) with
  | error e =>
      rw [hn] at hu
      cases hu
  | ok n =>
      rw [hn] at hu
      cases hu
      exact hport n u

include hc hhost

theorem keeps_hostport : Keeps get (recordHostport toInt choose) (recognizer toInt hostport) := by
  rw [hostport, recognizer_pair, recognizer_opt, recognizer_pair]
  exact (Silent.record hhost).keeps.seq
    (keeps_optionally hc ((keeps_lift _).seq (keeps_port toInt hport)))

theorem keeps_authority (huser : ∀ text u, get (Uri.assignUser text u) = get u)
    (hreset : ∀ u, get u.resetUser = get u) :
    Keeps get (recordAuthority toInt choose) (recognizer toInt authority) := by
  rw [authority, server, recognizer_choice, recognizer_opt, recognizer_pair]
  have huserinfo : Keeps get (optionally choose (recordUserinfoAt toInt))
      (recognizer toInt (.opt userinfo_at)) :=
    keeps_optionally hc (silent_userinfoAt toInt huser hreset).keeps
  exact keeps_choose hc
    (keeps_optionally hc (huserinfo.seq (keeps_hostport toInt hc hhost hport))) (keeps_lift _)

end Authority

section Keeps

variable (hc : IsChoice choose) (h : Untouched get)
include hc h

theorem keeps_query :
    Keeps get (recordQuery toInt choose) (recognizer toInt (.opt (.concat [lit '?', query]))) :=
  (silent_ledIn toInt hc '?' query h.query).keeps

theorem keeps_fragment : Keeps get (recordFragment toInt choose)
    (recognizer toInt (.opt (.concat [lit '#', fragment]))) :=
  (silent_ledIn toInt hc '#' fragment h.fragment).keeps

omit hc in
theorem keeps_absPath : Keeps get (recordAbsPath toInt) (recognizer toInt abs_path) :=
  (silent_absPath toInt h.toPathFree).keeps

variable (huser : ∀ text u, get (Uri.assignUser text u) = get u)
  (hreset : ∀ u, get u.resetUser = get u)
include huser hreset

theorem keeps_netPath : Keeps get (recordNetPath toInt choose) (recognizer toInt net_path) := by
  rw [net_path, recognizer_concat, recognizer_concat, recognizer_pair, recognizer_opt]
  exact (keeps_lift _).seq ((keeps_lift _).seq
    ((keeps_authority toInt hc h.host h.port huser hreset).seq
    (keeps_optionally hc (keeps_absPath toInt h))))

theorem keeps_hierPart : Keeps get (recordHierPart toInt choose) (recognizer toInt hier_part) := by
  rw [hier_part, recognizer_pair, recognizer_choice]
  exact (keeps_choose hc (keeps_netPath toInt hc h huser hreset) (keeps_absPath toInt h)).seq
    (keeps_query toInt hc h)

theorem keeps_relativeURI :
    Keeps get (recordRelativeURI toInt choose) (recognizer toInt relativeURI) := by
  rw [relativeURI, recognizer_pair, recognizer_either, recognizer_choice]
  exact (keeps_choose hc (keeps_netPath toInt hc h huser hreset) (keeps_choose hc
    (keeps_absPath toInt h) (silent_relPath toInt h.toPathFree hc).keeps)).seq
    (keeps_query toInt hc h)

end Keeps

/-! ### The scheme -/

theorem schemeUntouched : Untouched (Uri.scheme : Uri κ → Option (List κ)) := by
  constructor
  · constructor <;> exact fun _ => by intros; rfl
  all_goals exact fun _ _ => rfl

section Scheme

variable (hc : IsChoice choose)
include hc

theorem sets_scheme_absoluteURI : Sets Uri.scheme (recordAbsoluteURI toInt choose)
    (recognizer toInt absoluteURI) (recognizer toInt scheme).textOf := by
  rw [absoluteURI, recognizer_concat, recognizer_pair, recognizer_choice]
  have hscheme : Sets Uri.scheme (Meaning.record (recognizer toInt scheme) Uri.assignScheme)
      (recognizer toInt scheme) (recognizer toInt scheme).textOf := Sets.record fun _ _ => rfl
  exact hscheme.seq_keeps ((keeps_lift _).seq (keeps_choose hc
    (keeps_hierPart toInt hc schemeUntouched (fun _ _ => rfl) fun _ => rfl) (keeps_lift _)))

theorem keeps_scheme_relativeURI :
    Keeps Uri.scheme (recordRelativeURI toInt choose) (recognizer toInt relativeURI) :=
  keeps_relativeURI toInt hc schemeUntouched (fun _ _ => rfl) fun _ => rfl

end Scheme

/-- The parser leaves any scheme that it came across. -/
theorem sets_scheme_alt : Sets Uri.scheme (recordReference toInt alt)
    (recognizer toInt URI_reference) (recognizer toInt scheme).textOf := by
  rw [URI_reference, recognizer_pair, recognizer_opt, recognizer_choice]
  have hchoice := (sets_scheme_absoluteURI toInt isChoice_alt).alt_keeps
    (keeps_scheme_relativeURI toInt isChoice_alt)
  exact (hchoice.alt_keeps (keeps_lift .eps)).seq_keeps
    (keeps_fragment toInt isChoice_alt schemeUntouched)

/-- The scheme of an absolute URI. -/
def keptScheme (s : List κ) : Option (List κ) :=
  if recognizer toInt absoluteURI s = .reject then none else (recognizer toInt scheme).textOf s

theorem sets_scheme_orElse : Sets Uri.scheme (recordReference toInt orElse)
    (recognizer toInt URI_reference) (keptScheme toInt) := by
  rw [URI_reference, recognizer_pair, recognizer_opt, recognizer_choice]
  have hchoice := (sets_scheme_absoluteURI toInt isChoice_orElse).orElse_keeps
    (keeps_scheme_relativeURI toInt isChoice_orElse)
  refine ((hchoice.orElse_keeps (keeps_lift .eps)).congr fun s => ?_).seq_keeps
    (keeps_fragment toInt isChoice_orElse schemeUntouched)
  by_cases hs : recognizer toInt absoluteURI s = .reject
  · simp [hs, keptScheme]
  · simp [hs, keptScheme, Recognizer.alt_of_ne_reject hs]

/-! ### The user -/

theorem userUntouched : Untouched (Uri.user : Uri κ → Option (List κ)) := by
  constructor
  · constructor <;> exact fun _ => by intros; rfl
  all_goals exact fun _ _ => rfl

/-- The text of the user, where an at-sign follows. -/
def userText (t : List κ) : Option (List κ) :=
  match recognizer toInt userinfo_at t with
  | .accept _ => (recognizer toInt userinfo).textOf t
  | _ => none

theorem userText_isSome_iff {t : List κ} :
    (userText toInt t).isSome = true ↔ ∃ k, recognizer toInt userinfo_at t = .accept k := by
  rw [userText]
  cases hk : recognizer toInt userinfo_at t with
  | accept k =>
      rw [userinfo_at, recognizer_pair, Recognizer.seq_eq_accept] at hk
      obtain ⟨n, m, hn, -, -⟩ := hk
      simp [Recognizer.textOf, hn]
  | incomplete => simp
  | reject => simp

theorem sets_user_userinfoAt : Sets Uri.user (recordUserinfoAt toInt)
    (recognizer toInt userinfo_at) (userText toInt) := by
  intro s u v u' hu hrun
  obtain ⟨u₁, hseq, hend⟩ := finish_cases hrun
  have huserinfo : Sets Uri.user (Meaning.record (recognizer toInt userinfo) Uri.assignUser)
      (recognizer toInt userinfo) (recognizer toInt userinfo).textOf := Sets.record fun _ _ => rfl
  have hsets : Sets Uri.user
      ((Meaning.record (recognizer toInt userinfo) Uri.assignUser).seq (unrecorded toInt (lit '@')))
      (recognizer toInt userinfo_at) (recognizer toInt userinfo).textOf := by
    rw [userinfo_at, recognizer_pair]
    exact huserinfo.seq_keeps (keeps_lift _)
  obtain ⟨hv, huser⟩ := hsets _ _ _ _ hu hseq
  refine ⟨hv, ?_⟩
  rw [userText, ← hv]
  rcases hend with ⟨n, rfl, hok⟩ | ⟨hno, rfl⟩
  · cases hok
    exact huser
  · cases v with
    | accept n => exact absurd rfl (hno n)
    | incomplete => rfl
    | reject => rfl

/-- What the parse of a server is made of. -/
theorem recognizer_server : recognizer toInt server =
    Recognizer.opt (.seq (.opt (recognizer toInt userinfo_at)) (recognizer toInt hostport)) := by
  rw [server, recognizer_opt, recognizer_pair, recognizer_opt]

/-- The parser leaves a user that no host follows. -/
theorem sets_user_server_alt : Sets Uri.user (recordServer toInt alt) (recognizer toInt server)
    (userText toInt) := by
  rw [recognizer_server]
  have huserinfo := (sets_user_userinfoAt toInt).alt_keeps (keeps_lift .eps)
  have hinner := huserinfo.seq_keeps (keeps_hostport toInt isChoice_alt userUntouched.host
    userUntouched.port)
  exact hinner.alt_keeps (keeps_lift .eps)

/-- The user of an authority that a host follows. -/
def keptUser (t : List κ) : Option (List κ) :=
  if Recognizer.seq (.opt (recognizer toInt userinfo_at)) (recognizer toInt hostport) t = .reject
  then none else userText toInt t

/-- What is behind the at-sign decides about the server. -/
theorem server_of_user {t : List κ} {k : ℕ} (hk : recognizer toInt userinfo_at t = .accept k) :
    Recognizer.seq (.opt (recognizer toInt userinfo_at)) (recognizer toInt hostport) t =
      (recognizer toInt hostport (t.drop k)).advance k :=
  Recognizer.seq_of_accept (Recognizer.alt_eq_accept.2 (.inl hk))

theorem keptUser_of_reject {t : List κ} {k : ℕ} (hk : recognizer toInt userinfo_at t = .accept k)
    (h : recognizer toInt hostport (t.drop k) = .reject) : keptUser toInt t = none := by
  rw [keptUser, server_of_user toInt hk, h]
  rfl

theorem keptUser_of_completed {t : List κ}
    (h : ∀ k, recognizer toInt userinfo_at t = .accept k →
      recognizer toInt hostport (t.drop k) ≠ .reject) : keptUser toInt t = userText toInt t := by
  by_cases hk : ∃ k, recognizer toInt userinfo_at t = .accept k
  · obtain ⟨k, hk⟩ := hk
    rw [keptUser, server_of_user toInt hk, if_neg (by simpa using h k hk)]
  · have hnone : userText toInt t = none := by
      rw [← userText_isSome_iff] at hk
      simpa using hk
    rw [keptUser, hnone, ite_self]

theorem sets_user_server_orElse : Sets Uri.user (recordServer toInt orElse)
    (recognizer toInt server) (keptUser toInt) := by
  rw [recognizer_server]
  have huserinfo : Sets Uri.user (optionally orElse (recordUserinfoAt toInt))
      (.opt (recognizer toInt userinfo_at)) (userText toInt) := by
    refine ((sets_user_userinfoAt toInt).orElse_keeps (keeps_lift .eps)).congr fun s => ?_
    by_cases hs : recognizer toInt userinfo_at s = .reject
    · simp [hs, userText]
    · simp [hs]
  have hinner := huserinfo.seq_keeps (keeps_hostport toInt isChoice_orElse userUntouched.host
    userUntouched.port)
  exact hinner.orElse_keeps (keeps_lift .eps)

section User

variable {p : List κ → Option (List κ)}

/-- A choice whose first alternative sets nothing where it rejects. -/
theorem sets_choose (hc : IsChoice choose) {get : Uri κ → Option β} {m m' : Meaning κ (Uri κ)}
    {f f' : Recognizer κ} {q q' : List κ → Option β} (h : Sets get m f q) (hq : f.Commits q)
    (h' : Sets get m' f' q') :
    Sets get (choose m m') (f.alt f') fun s => if f s = .reject then q' s else q s := by
  rcases hc with rfl | rfl
  · exact h.alt hq h'
  · exact h.orElse h'

theorem sets_choose_keeps (hc : IsChoice choose) {get : Uri κ → Option β} {m m' : Meaning κ (Uri κ)}
    {f f' : Recognizer κ} {q : List κ → Option β} (h : Sets get m f q) (hq : f.Commits q)
    (h' : Keeps get m' f') : Sets get (choose m m') (f.alt f') q := by
  refine (sets_choose hc h hq h'.sets).congr fun s => ?_
  by_cases hs : f s = .reject
  · simp [hs, hq s hs]
  · simp [hs]

/-- What follows `"//"`, or a scheme, a colon and `"//"`. -/
def inReference (p : List κ → Option β) (s : List κ) : Option β :=
  if recognizer toInt absoluteURI s = .reject then inNetPath toInt p s else inAbsoluteURI toInt p s

variable (hc : IsChoice choose)
  (hserver : Sets Uri.user (recordServer toInt choose) (recognizer toInt server) p)
include hc hserver

theorem sets_user_netPath : Sets Uri.user (recordNetPath toInt choose) (recognizer toInt net_path)
    (inNetPath toInt p) := by
  rw [net_path, recognizer_concat, recognizer_concat, recognizer_pair, recognizer_opt]
  have hauthority : Sets Uri.user (recordAuthority toInt choose)
      (recognizer toInt authority) p := by
    rw [authority, recognizer_choice]
    exact sets_choose_keeps hc hserver ((lenient_server toInt).commits _) (keeps_lift _)
  exact Sets.keeps_seq (keeps_lift _) (Sets.keeps_seq (keeps_lift _) (hauthority.seq_keeps
    (keeps_optionally hc (keeps_absPath toInt userUntouched))))

theorem sets_user_absoluteURI : Sets Uri.user (recordAbsoluteURI toInt choose)
    (recognizer toInt absoluteURI) (inAbsoluteURI toInt p) := by
  rw [absoluteURI, recognizer_concat, recognizer_pair, recognizer_choice]
  have hhier : Sets Uri.user (recordHierPart toInt choose) (recognizer toInt hier_part)
      (inNetPath toInt p) := by
    rw [hier_part, recognizer_pair, recognizer_choice]
    exact (sets_choose_keeps hc (sets_user_netPath toInt hc hserver) (commits_netPath toInt p)
      (keeps_absPath toInt userUntouched)).seq_keeps (keeps_query toInt hc userUntouched)
  have hscheme : Keeps Uri.user (Meaning.record (recognizer toInt scheme) Uri.assignScheme)
      (recognizer toInt scheme) := (Silent.record fun _ _ => by rfl).keeps
  exact Sets.keeps_seq hscheme (Sets.keeps_seq (keeps_lift _)
    (sets_choose_keeps hc hhier (commits_hierPart toInt p) (keeps_lift _)))

theorem sets_user_relativeURI : Sets Uri.user (recordRelativeURI toInt choose)
    (recognizer toInt relativeURI) (inNetPath toInt p) := by
  rw [relativeURI, recognizer_pair, recognizer_either, recognizer_choice]
  have hpath := keeps_choose hc (keeps_absPath toInt userUntouched)
    (silent_relPath toInt userUntouched.toPathFree hc).keeps
  exact (sets_choose_keeps hc (sets_user_netPath toInt hc hserver) (commits_netPath toInt p)
    hpath).seq_keeps (keeps_query toInt hc userUntouched)

/-- The user of a reference is that of its server. -/
theorem sets_user_reference : Sets Uri.user (recordReference toInt choose)
    (recognizer toInt URI_reference) (inReference toInt p) := by
  rw [URI_reference, recognizer_pair, recognizer_opt, recognizer_choice]
  have hchoice := sets_choose hc (sets_user_absoluteURI toInt hc hserver)
    (commits_absoluteURI toInt p) (sets_user_relativeURI toInt hc hserver)
  refine (sets_choose_keeps hc hchoice ?_ (keeps_lift .eps)).seq_keeps
    (keeps_fragment toInt hc userUntouched)
  intro s hs
  by_cases habs : recognizer toInt absoluteURI s = .reject
  · rw [Recognizer.alt_of_reject habs] at hs
    simp [habs, commits_relativeURI toInt p s hs]
  · rw [Recognizer.alt_of_ne_reject habs] at hs
    exact absurd hs habs

end User

/-! ### The path -/

/-- Whether there is a sequence of segments, be it an empty one. -/
def Uri.hasSegments (u : Uri κ) : Option Unit := u.path_segments.map fun _ => ()

theorem hasSegments_emplaceSegment (text : List κ) (u : Uri κ) :
    (u.emplaceSegment text).hasSegments = u.hasSegments := by
  cases h : u.path_segments <;> simp [Uri.hasSegments, Uri.emplaceSegment, h]

/-- Something about what a path is read from, where there may be an authority in front of it. -/
def inHierPart (p : List κ → Option β) (s : List κ) : Option β :=
  if recognizer toInt net_path s = .reject then p s
  else inNetPath toInt ((recognizer toInt authority).after fun t =>
    if recognizer toInt abs_path t = .reject then none else p t) s

/-- Something about what the path of a reference is read from. -/
def inPath (p : List κ → Option β) (s : List κ) : Option β :=
  if recognizer toInt absoluteURI s = .reject then
    if recognizer toInt relativeURI s = .reject then none else inHierPart toInt p s
  else (recognizer toInt scheme).after ((recognizer toInt (lit ':')).after fun t =>
    if recognizer toInt hier_part t = .reject then none else inHierPart toInt p t) s

/-- What the path of a reference is read from, if it has one. -/
def pathAt : List κ → Option (List κ) := inPath toInt some

theorem inPath_eq_bind (p : List κ → Option β) (s : List κ) :
    inPath toInt p s = (pathAt toInt s).bind p := by
  have hite : ∀ {c : Prop} [Decidable c] {x y : Option (List κ)},
      (if c then x else y).bind p = if c then x.bind p else y.bind p := fun {c} _ x y => by
    split_ifs <;> rfl
  have hhier : ∀ t, inHierPart toInt p t = (inHierPart toInt some t).bind p := fun t => by
    simp only [inHierPart, inNetPath, hite, ← Recognizer.after_bind, Option.bind_some,
      Option.bind_none]
  simp only [pathAt, inPath, hite, ← Recognizer.after_bind, Option.bind_none, hhier]

section Path

variable (hc : IsChoice choose)
include hc

theorem keeps_relSegments : Keeps (Uri.hasSegments : Uri κ → _)
    ((unrecorded toInt rel_segment).seq (optionally choose (recordSegments toInt)))
    (recognizer toInt rel_path) := by
  rw [rel_path, recognizer_pair, recognizer_opt]
  exact ((Silent.lift _).seq (silent_optionally hc
    (silent_segments toInt hasSegments_emplaceSegment))).keeps

theorem keeps_segments_authority : Keeps (Uri.hasSegments : Uri κ → _)
    (recordAuthority toInt choose) (recognizer toInt authority) :=
  keeps_authority toInt hc (fun _ _ => rfl) (fun _ _ => rfl) (fun _ _ => rfl) fun _ => rfl

theorem keeps_segments_query : Keeps (Uri.hasSegments : Uri κ → _) (recordQuery toInt choose)
    (recognizer toInt (.opt (.concat [lit '?', query]))) := by
  have hquery : ∀ text (u : Uri κ), (u.assignQuery text).hasSegments = u.hasSegments :=
    fun _ _ => rfl
  exact (silent_ledIn toInt hc '?' query hquery).keeps

theorem keeps_segments_fragment : Keeps (Uri.hasSegments : Uri κ → _)
    (recordFragment toInt choose) (recognizer toInt (.opt (.concat [lit '#', fragment]))) := by
  have hfragment : ∀ text (u : Uri κ), (u.assignFragment text).hasSegments = u.hasSegments :=
    fun _ _ => rfl
  exact (silent_ledIn toInt hc '#' fragment hfragment).keeps

end Path

/-- The visitor makes a sequence before there is an attempt at a path. -/
theorem attempt_cases {m : Meaning κ (Uri κ)} {f : Recognizer κ} (h : Keeps Uri.hasSegments m f)
    {s : List κ} {u u' : Uri κ} {v : Verdict} (hrun : recordPath m s u = .ok (v, u')) :
    v = f s ∧ u'.hasSegments = some () := by
  have hfinish : Keeps Uri.hasSegments (m.finish (fun text u => .ok (u.assignPath text)) id) f := by
    refine h.finish (fun text u u' hu => ?_) fun _ => rfl
    cases hu
    rfl
  exact hfinish s u.mutablePathSegments v u' hrun

theorem sets_path {m : Meaning κ (Uri κ)} {f : Recognizer κ} (h : Keeps Uri.hasSegments m f) :
    Sets Uri.hasSegments (recordPath m) f fun _ => some () := fun _ _ _ _ _ => attempt_cases h

theorem sets_segments_absPath : Sets (Uri.hasSegments : Uri κ → _) (recordAbsPath toInt)
    (recognizer toInt abs_path) fun _ => some () :=
  sets_path (silent_segments toInt hasSegments_emplaceSegment).keeps

theorem sets_segments_netPath : Sets (Uri.hasSegments : Uri κ → _) (recordNetPath toInt orElse)
    (recognizer toInt net_path) (inNetPath toInt ((recognizer toInt authority).after fun t =>
      if recognizer toInt abs_path t = .reject then none else some ())) := by
  rw [net_path, recognizer_concat, recognizer_concat, recognizer_pair, recognizer_opt]
  exact Sets.keeps_seq (keeps_lift _) (Sets.keeps_seq (keeps_lift _)
    (Sets.keeps_seq (keeps_segments_authority toInt isChoice_orElse)
      ((sets_segments_absPath toInt).orElse_keeps (keeps_lift .eps))))

theorem sets_segments_hierPart : Sets (Uri.hasSegments : Uri κ → _) (recordHierPart toInt orElse)
    (recognizer toInt hier_part) (inHierPart toInt fun _ => some ()) := by
  rw [hier_part, recognizer_pair, recognizer_choice]
  exact ((sets_segments_netPath toInt).orElse (sets_segments_absPath toInt)).seq_keeps
    (keeps_segments_query toInt isChoice_orElse)

theorem sets_segments_relativeURI : Sets (Uri.hasSegments : Uri κ → _)
    (recordRelativeURI toInt orElse) (recognizer toInt relativeURI)
    (inHierPart toInt fun _ => some ()) := by
  rw [relativeURI, recognizer_pair, recognizer_either, recognizer_choice]
  have hrel := sets_path (keeps_relSegments toInt (κ := κ) isChoice_orElse)
  refine (((sets_segments_netPath toInt).orElse
    ((sets_segments_absPath toInt).orElse hrel)).congr fun s => ?_).seq_keeps
    (keeps_segments_query toInt isChoice_orElse)
  simp only [ite_self]
  rfl

/-- With undoing, a reference has a sequence of segments where it has a path. -/
theorem sets_segments_reference : Sets (Uri.hasSegments : Uri κ → _)
    (recordReference toInt orElse) (recognizer toInt URI_reference)
    (inPath toInt fun _ => some ()) := by
  rw [URI_reference, recognizer_pair, recognizer_opt, recognizer_choice]
  have hscheme : Keeps Uri.hasSegments (Meaning.record (recognizer toInt scheme) Uri.assignScheme)
      (recognizer toInt scheme) := (Silent.record fun _ _ => by rfl).keeps
  have habs : Sets Uri.hasSegments (recordAbsoluteURI toInt orElse) (recognizer toInt absoluteURI)
      ((recognizer toInt scheme).after ((recognizer toInt (lit ':')).after fun t =>
        if recognizer toInt hier_part t = .reject then none
        else inHierPart toInt (fun _ => some ()) t)) := by
    rw [absoluteURI, recognizer_concat, recognizer_pair, recognizer_choice]
    exact Sets.keeps_seq hscheme (Sets.keeps_seq (keeps_lift _)
      ((sets_segments_hierPart toInt).orElse_keeps (keeps_lift _)))
  refine (((habs.orElse (sets_segments_relativeURI toInt)).orElse_keeps
    (keeps_lift .eps)).congr fun s => ?_).seq_keeps (keeps_segments_fragment toInt isChoice_orElse)
  rw [inPath]
  by_cases hs : recognizer toInt absoluteURI s = .reject
  · simp only [hs, if_true, Recognizer.alt_of_reject hs]
  · simp only [hs, if_false, Recognizer.alt_of_ne_reject hs]

/-! ### The attempts at a path -/

section Attempts

/-- What leaves the segments alone leaves a sequence of them alone. -/
theorem Keeps.leads_hasSegments {m : Meaning κ (Uri κ)} {f : Recognizer κ}
    (h : Keeps Uri.hasSegments m f) :
    Leads (fun u : Uri κ => u.hasSegments = some ()) (fun u => u.hasSegments = some ()) m :=
  h.leads fun _ _ hkept hu => hkept.trans hu

theorem leads_hasSegments_lift (f : Recognizer κ) :
    Leads (fun u : Uri κ => u.hasSegments = some ()) (fun u => u.hasSegments = some ())
      (Meaning.lift f) :=
  (keeps_lift f).leads_hasSegments

theorem leads_anywhere (m : Meaning κ (Uri κ)) : Leads (fun _ => True) (fun _ => True) m :=
  fun _ _ _ _ _ _ => ⟨fun _ _ => trivial, fun _ => trivial⟩

theorem leaves_path {m : Meaning κ (Uri κ)} {f : Recognizer κ} (h : Keeps Uri.hasSegments m f) :
    Leaves (fun u : Uri κ => u.hasSegments = some ()) (recordPath m) :=
  fun _ _ _ _ hrun _ => (attempt_cases h hrun).2

theorem leaves_absPath :
    Leaves (fun u : Uri κ => u.hasSegments = some ()) (recordAbsPath toInt) :=
  leaves_path (silent_segments toInt hasSegments_emplaceSegment).keeps

theorem attempts_netPath : Leads (fun _ => True) (fun u : Uri κ => u.hasSegments = some ())
    (recordNetPath toInt alt) := by
  have hpath := (leaves_absPath toInt).alt_stable (leads_hasSegments_lift .eps)
  exact (leads_anywhere _).stable_seq ((leads_anywhere _).stable_seq
    ((leads_anywhere _).stable_seq hpath.leads))

theorem leaves_hierPart :
    Leaves (fun u : Uri κ => u.hasSegments = some ()) (recordHierPart toInt alt) :=
  (Leaves.of_alt (attempts_netPath toInt) (leaves_absPath toInt)).seq_stable
    (keeps_segments_query toInt isChoice_alt).leads_hasSegments

theorem leaves_relativeURI :
    Leaves (fun u : Uri κ => u.hasSegments = some ()) (recordRelativeURI toInt alt) :=
  (Leaves.of_alt (attempts_netPath toInt) (Leaves.of_alt (leaves_absPath toInt).leads
    (leaves_path (keeps_relSegments toInt isChoice_alt)))).seq_stable
    (keeps_segments_query toInt isChoice_alt).leads_hasSegments

/-- **The parser has come to an attempt at a path** wherever it has not stopped before. -/
theorem leaves_reference :
    Leaves (fun u : Uri κ => u.hasSegments = some ()) (recordReference toInt alt) := by
  have hhier := (leaves_hierPart toInt).alt_stable
    (leads_hasSegments_lift (recognizer toInt opaque_part))
  have habs := (leads_anywhere (Meaning.record (recognizer toInt scheme)
    Uri.assignScheme)).stable_seq ((leads_anywhere (unrecorded toInt (lit ':'))).stable_seq
      hhier.leads)
  exact ((Leaves.of_alt habs (leaves_relativeURI toInt)).alt_stable
    (leads_hasSegments_lift .eps)).seq_stable
    (keeps_segments_fragment toInt isChoice_alt).leads_hasSegments

end Attempts

/-! ### Everything else -/

/-- All but the scheme and the user. -/
def Uri.erase (u : Uri κ) : Uri κ := { u with scheme := none, user := none }

/-- All but the scheme and the user, where having no segments and an empty list of them is the
same. -/
def Uri.besides (u : Uri κ) : Uri κ := u.mutablePathSegments.erase

theorem besides_eq_of_erase {u w : Uri κ} (h : u.erase = w.erase) : u.besides = w.besides :=
  congrArg Uri.mutablePathSegments h

theorem tracks_segments : Tracks Uri.erase (recordSegments toInt) (recordSegments toInt) := by
  have hsegment : Tracks Uri.erase
      (Meaning.record (recognizer toInt Uri.Grammar.segment) Uri.emplaceSegment)
      (Meaning.record (recognizer toInt Uri.Grammar.segment) Uri.emplaceSegment) :=
    Tracks.record fun text _ _ h => congrArg (Uri.emplaceSegment text) h
  have hturn := Tracks.keeps_seq (keeps_lift (recognizer toInt (lit '/')))
    (Tracks.lift (recognizer toInt (lit '/'))) hsegment
  have hsilent : Silent (fun _ : Uri κ => ())
      ((unrecorded toInt (lit '/')).seq
        (Meaning.record (recognizer toInt Uri.Grammar.segment) Uri.emplaceSegment)) _ :=
    (Silent.lift _).seq (Silent.record fun _ _ => rfl)
  have hsettles := hsilent.loop.keeps.settles (Recognizer.lenient_star _)
  exact Tracks.keeps_seq (keeps_lift _) (Tracks.lift _)
    (hsegment.seq_settles (hturn.loop hsilent.bounded hsilent.bounded hsettles) hsettles)

theorem tracks_path {m m' : Meaning κ (Uri κ)} (h : Tracks Uri.erase m m') :
    Tracks Uri.besides (recordPath m) (recordPath m') := by
  intro s u w hu
  have hfinish := h.finish (fun text => .ok text) Uri.assignPath
    fun text _ _ h => congrArg (Uri.assignPath text) h
  have hrun := hfinish s u.mutablePathSegments w.mutablePathSegments hu
  exact hrun.mono (fun _ _ => besides_eq_of_erase) fun _ => besides_eq_of_erase

theorem tracks_absPath : Tracks Uri.besides (recordAbsPath toInt) (recordAbsPath toInt) :=
  tracks_path (tracks_segments toInt)

theorem tracks_relPath :
    Tracks Uri.besides (recordRelPath toInt alt) (recordRelPath toInt orElse) :=
  tracks_path (Tracks.keeps_seq (keeps_lift _) (Tracks.lift _)
    ((tracks_segments toInt).choice (Tracks.lift .eps)))

theorem tracks_port : Tracks Uri.besides (recordPort toInt) (recordPort toInt) :=
  (Tracks.lift _).finish (fun text => stoul (text.map toInt)) Uri.assignPort
    fun n _ _ h => congrArg (Uri.assignPort n) h

/-- That nothing is asked of a state but that the run ends. -/
theorem trivialUntouched : Untouched fun _ : Uri κ => () := by
  constructor
  · constructor <;> exact fun _ => by intros; rfl
  all_goals exact fun _ _ => rfl

theorem tracks_hostport :
    Tracks Uri.besides (recordHostport toInt alt) (recordHostport toInt orElse) := by
  have hhost : Tracks Uri.besides (Meaning.record (recognizer toInt host) Uri.assignHost)
      (Meaning.record (recognizer toInt host) Uri.assignHost) :=
    Tracks.record fun text _ _ h => congrArg (Uri.assignHost text) h
  have hport := Tracks.keeps_seq (keeps_lift (recognizer toInt (lit ':'))) (Tracks.lift _)
    (tracks_port toInt)
  have hkeeps : Keeps (fun _ => ()) (recordPort toInt) (recognizer toInt port) :=
    keeps_port toInt trivialUntouched.port
  have hsettles := (keeps_optionally isChoice_alt ((keeps_lift (recognizer toInt (lit ':'))).seq
    hkeeps)).settles (Recognizer.lenient_opt _)
  exact hhost.seq_settles (hport.choice (Tracks.lift .eps)) hsettles

theorem tracks_authority :
    Tracks Uri.besides (recordAuthority toInt alt) (recordAuthority toInt orElse) := by
  have huser : Silent Uri.besides (recordUserinfoAt toInt) (recognizer toInt userinfo_at) :=
    silent_userinfoAt toInt (fun _ _ => rfl) fun _ => rfl
  have huserinfo : Tracks Uri.besides (optionally alt (recordUserinfoAt toInt))
      (optionally orElse (recordUserinfoAt toInt)) := huser.tracks.choice (Tracks.lift .eps)
  have hserver := (Tracks.keeps_seq (silent_optionally isChoice_alt huser).keeps huserinfo
    (tracks_hostport toInt)).choice (Tracks.lift .eps)
  exact hserver.choice (Tracks.lift _)

theorem tracks_netPath :
    Tracks Uri.besides (recordNetPath toInt alt) (recordNetPath toInt orElse) := by
  have hpath := (tracks_absPath toInt).choice (Tracks.lift .eps)
  have hsettles := (keeps_optionally isChoice_alt
    (keeps_absPath toInt trivialUntouched)).settles (Recognizer.lenient_opt _)
  exact Tracks.keeps_seq (keeps_lift _) (Tracks.lift _) (Tracks.keeps_seq (keeps_lift _)
    (Tracks.lift _) ((tracks_authority toInt).seq_settles hpath hsettles))

/-- An optional part that a character leads in. -/
theorem tracks_ledIn (c : Char) (g : Grammar) {part : List κ → Uri κ → Uri κ}
    (h : ∀ text u w, Uri.besides u = Uri.besides w →
      Uri.besides (part text u) = Uri.besides (part text w)) :
    Tracks Uri.besides
      (optionally alt ((unrecorded toInt (lit c)).seq (Meaning.record (recognizer toInt g) part)))
      (optionally orElse
        ((unrecorded toInt (lit c)).seq (Meaning.record (recognizer toInt g) part))) :=
  (Tracks.keeps_seq (keeps_lift _) (Tracks.lift _) (Tracks.record h)).choice (Tracks.lift .eps)

theorem tracks_query : Tracks Uri.besides (recordQuery toInt alt) (recordQuery toInt orElse) :=
  tracks_ledIn toInt '?' query fun text _ _ h => congrArg (Uri.assignQuery text) h

theorem tracks_fragment :
    Tracks Uri.besides (recordFragment toInt alt) (recordFragment toInt orElse) :=
  tracks_ledIn toInt '#' fragment fun text _ _ h => congrArg (Uri.assignFragment text) h

theorem settles_query : Settles (recordQuery toInt alt : Meaning κ (Uri κ)) :=
  (keeps_query toInt isChoice_alt trivialUntouched).settles (Recognizer.lenient_opt _)

theorem settles_fragment : Settles (recordFragment toInt alt : Meaning κ (Uri κ)) :=
  (keeps_fragment toInt isChoice_alt trivialUntouched).settles (Recognizer.lenient_opt _)

theorem tracks_absoluteURI :
    Tracks Uri.besides (recordAbsoluteURI toInt alt) (recordAbsoluteURI toInt orElse) := by
  have hscheme : Silent Uri.besides (Meaning.record (recognizer toInt scheme) Uri.assignScheme)
      (recognizer toInt scheme) := Silent.record fun _ _ => rfl
  have hhier : Tracks Uri.besides (recordHierPart toInt alt) (recordHierPart toInt orElse) :=
    ((tracks_netPath toInt).choice (tracks_absPath toInt)).seq_settles (tracks_query toInt)
      (settles_query toInt)
  exact Tracks.keeps_seq hscheme.keeps hscheme.tracks (Tracks.keeps_seq (keeps_lift _)
    (Tracks.lift _) (hhier.choice (Tracks.lift _)))

theorem tracks_relativeURI :
    Tracks Uri.besides (recordRelativeURI toInt alt) (recordRelativeURI toInt orElse) :=
  ((tracks_netPath toInt).choice ((tracks_absPath toInt).choice (tracks_relPath toInt))).seq_settles
    (tracks_query toInt) (settles_query toInt)

/-- **But for the scheme and the user**, undoing makes no difference. -/
theorem tracks_reference :
    Tracks Uri.besides (recordReference toInt alt) (recordReference toInt orElse) :=
  (((tracks_absoluteURI toInt).choice (tracks_relativeURI toInt)).choice
    (Tracks.lift .eps)).seq_settles
    (tracks_fragment toInt) (settles_fragment toInt)

/-! ### When nothing is left behind -/

/-- What an authority is read from. -/
def authorityAt : List κ → Option (List κ) := inReference toInt some

theorem inReference_eq_bind (p : List κ → Option β) (s : List κ) :
    inReference toInt p s = (authorityAt toInt s).bind p := by
  have hnet : ∀ x, inNetPath toInt p x = (inNetPath toInt some x).bind p := fun x => by
    simp only [inNetPath, ← Recognizer.after_bind, Option.bind_some]
  have habs : inAbsoluteURI toInt p s = (inAbsoluteURI toInt some s).bind p := by
    simp only [inAbsoluteURI, ← Recognizer.after_bind, ← hnet]
  rw [inReference, authorityAt, inReference, hnet, habs]
  split <;> rfl

theorem reference_of_absoluteURI_incomplete {s : List κ}
    (h : recognizer toInt absoluteURI s = .incomplete) :
    recognizer toInt URI_reference s = .incomplete := by
  rw [URI_reference, recognizer_pair, recognizer_opt, recognizer_choice]
  exact Recognizer.seq_of_incomplete
    (Recognizer.alt_of_incomplete (Recognizer.alt_of_incomplete h))

theorem absoluteURI_scheme {s : List κ} {n : ℕ} (h : recognizer toInt absoluteURI s = .accept n) :
    ∃ k, recognizer toInt scheme s = .accept k := by
  rw [absoluteURI, recognizer_concat, Recognizer.seq_eq_accept] at h
  obtain ⟨k, -, hk, -⟩ := h
  exact ⟨k, hk⟩

/-- Where the authority needs more characters, so does the reference. -/
theorem reference_incomplete {s t : List κ} (h : authorityAt toInt s = some t)
    (ht : recognizer toInt authority t = .incomplete) :
    recognizer toInt URI_reference s = .incomplete := by
  have hnet : ∀ x, inNetPath toInt some x = some t → recognizer toInt net_path x = .incomplete := by
    intro x hx
    simp only [inNetPath, Recognizer.after_eq_some, Option.some.injEq] at hx
    obtain ⟨n, hn, k, hk, rfl⟩ := hx
    rw [net_path, recognizer_concat, recognizer_concat, recognizer_pair,
      Recognizer.seq_of_accept hn, Recognizer.seq_of_accept hk, Recognizer.seq_of_incomplete ht]
    rfl
  have hchoice : Recognizer.alt (recognizer toInt absoluteURI) (recognizer toInt relativeURI) s =
      .incomplete := by
    rw [authorityAt, inReference] at h
    split_ifs at h with habs
    · rw [Recognizer.alt_of_reject habs, relativeURI, recognizer_pair, recognizer_either]
      exact Recognizer.seq_of_incomplete (Recognizer.alt_of_incomplete (hnet s h))
    · rw [Recognizer.alt_of_ne_reject habs]
      simp only [inAbsoluteURI, Recognizer.after_eq_some] at h
      obtain ⟨n, hn, k, hk, h⟩ := h
      have hhier : recognizer toInt hier_part ((s.drop n).drop k) = .incomplete := by
        rw [hier_part, recognizer_pair, recognizer_choice]
        exact Recognizer.seq_of_incomplete (Recognizer.alt_of_incomplete (hnet _ h))
      rw [absoluteURI, recognizer_concat, recognizer_pair, recognizer_choice,
        Recognizer.seq_of_accept hn, Recognizer.seq_of_accept hk,
        Recognizer.alt_of_incomplete hhier]
      rfl
  rw [URI_reference, recognizer_pair, recognizer_opt, recognizer_choice]
  exact Recognizer.seq_of_incomplete (Recognizer.alt_of_incomplete hchoice)

/-- An authority that is read contains the user and the at-sign that a host follows. -/
theorem authority_of_user {t : List κ} {k : ℕ} (hk : recognizer toInt userinfo_at t = .accept k)
    (h : recognizer toInt hostport (t.drop k) ≠ .reject)
    (ht : recognizer toInt authority t ≠ .incomplete) :
    ∃ n, recognizer toInt authority t = .accept n ∧ k ≤ n := by
  have hserver : recognizer toInt authority t =
      (recognizer toInt hostport (t.drop k)).advance k := by
    rw [authority, recognizer_choice, Recognizer.alt_of_ne_reject (lenient_server toInt t),
      recognizer_server, Recognizer.opt, Recognizer.alt_of_ne_reject, server_of_user toInt hk]
    rw [server_of_user toInt hk]
    simpa using h
  rw [hserver] at ht ⊢
  cases hn : recognizer toInt hostport (t.drop k) with
  | accept n => exact ⟨k + n, rfl, Nat.le_add_right k n⟩
  | incomplete => exact absurd (by rw [hn]; rfl) ht
  | reject => exact absurd hn h

/-- The fields are those of the alternative finally taken: they are what the same parse leaves when
ordered choice undoes what a rejected alternative has done.  In particular there is a scheme exactly
for an absolute URI, and a user only where the authority has one with an at-sign. -/
structure NoStale (s : List Byte) (u : Uri Byte) : Prop where
  taken : ∃ n w, recordReference octet orElse s {} = .ok (.accept n, w) ∧ u = w.assign (s.take n)
  scheme : u.scheme.isSome = true ↔ ∃ n, recognizer octet absoluteURI s = .accept n
  user : u.user.isSome = true → ∃ t k n, authorityAt octet s = some t ∧
    recognizer octet userinfo_at t = .accept k ∧ recognizer octet authority t = .accept n ∧ k ≤ n

/-- Where a scheme is read, an absolute URI is. -/
def SchemeCompleted (s : List Byte) : Prop :=
  ∀ n, recognizer octet scheme s = .accept n → recognizer octet absoluteURI s ≠ .reject

/-- Where a user and an at-sign are read, a host is. -/
def UserCompleted (s : List Byte) : Prop :=
  ∀ t n, authorityAt octet s = some t → recognizer octet userinfo_at t = .accept n →
    recognizer octet hostport (t.drop n) ≠ .reject

/-- The alternative that is taken reads a path. -/
def PathRead (s : List Byte) : Prop := (pathAt octet s).isSome = true

instance (s : List Byte) : Decidable (PathRead s) :=
  inferInstanceAs (Decidable ((pathAt octet s).isSome = true))

/-- The parse of a reference with `MakeUriParseVisitor`. -/
theorem meaning_make_octets (s : List Byte) (u : Uri Byte) :
    meaning octets (uriVisitors octet) (some .make) URI_reference s u =
      ((recordReference octet alt).finish (fun text u => .ok (u.assign text)) id) s u := by
  have h := meaning_make octet_inLookup (V := uriVisitors octet) (e := id) (p := .self)
    fun _ _ => rfl
  rw [through_self] at h
  exact congrFun (congrFun h s) u

/-- A parse that succeeds, from what it records. -/
theorem visits_success {s : List Byte} {n : ℕ} {u : Uri Byte}
    (h : recordReference octet alt s {} = .ok (.accept n, u)) :
    Visits octets (uriVisitors octet) .make URI_reference s {} (.success n)
      (u.assign (s.take n)) := by
  have hrun : meaning octets (uriVisitors octet) (some .make) URI_reference s {} =
      .ok (.accept n, u.assign (s.take n)) := by
    rw [meaning_make_octets, Meaning.finish, Exec.bind_of_ok h]
    rfl
  obtain ⟨r, hr, hv⟩ := exists_visits_iff.2 hrun
  rw [ParseResult.verdict_eq_accept] at hv
  rwa [hv] at hr

theorem visits_of_reference {s : List Byte} {n : ℕ} {u : Uri Byte}
    (h : recordReference octet alt s {} = .ok (.accept n, u)) :
    ∃ r, Visits octets (uriVisitors octet) .make URI_reference s {} r (u.assign (s.take n)) ∧
      r.ok = true :=
  ⟨_, visits_success h, rfl⟩

/-- A parse that succeeds, and the same parse with a choice that undoes. -/
theorem visits_make {s : List Byte} {r : ParseResult} {u : Uri Byte}
    (h : Visits octets (uriVisitors octet) .make URI_reference s {} r u) (hr : r.ok = true) :
    ∃ n u₁ w, u = u₁.assign (s.take n) ∧ recordReference octet alt s {} = .ok (.accept n, u₁) ∧
      recordReference octet orElse s {} = .ok (.accept n, w) ∧ u₁.besides = w.besides := by
  have hmeaning := exists_visits_iff.1 ⟨_, h, rfl⟩
  rw [ParseResult.eq_success hr, ParseResult.verdict_success, meaning_make_octets] at hmeaning
  obtain ⟨u₁, hreference, hend⟩ := finish_cases hmeaning
  obtain ⟨k, hk, hassign⟩ := hend.resolve_right fun hno => hno.1 r.pos rfl
  cases hk
  cases hassign
  have hagree := tracks_reference octet s {} {} rfl
  rw [hreference] at hagree
  generalize hspec : recordReference octet orElse s {} = x at hagree
  cases hagree with
  | ok v w w' same rejected => exact ⟨r.pos, u₁, w', rfl, hreference, rfl, same⟩

/-- What was set is the same where the scheme and the user are. -/
theorem mutablePathSegments_eq_iff {u w : Uri Byte} (h : u.besides = w.besides)
    (text : List Byte) :
    (u.assign text).mutablePathSegments = (w.assign text).mutablePathSegments ↔
      u.scheme = w.scheme ∧ u.user = w.user := by
  refine ⟨fun h => ⟨congrArg (fun x => x.scheme) h, congrArg (fun x => x.user) h⟩, fun heq => ?_⟩
  have hrestore : ∀ x : Uri Byte, (x.assign text).mutablePathSegments =
      { x.besides.assign text with scheme := x.scheme, user := x.user } := fun _ => rfl
  rw [hrestore, hrestore, h, heq.1, heq.2]

/-- What was set is the same where the scheme and the user are, and where there is a sequence of
segments in both. -/
theorem assign_eq_iff {u w : Uri Byte} (h : u.besides = w.besides) (text : List Byte) :
    u.assign text = w.assign text ↔
      u.scheme = w.scheme ∧ u.user = w.user ∧ u.hasSegments = w.hasSegments := by
  constructor
  · intro heq
    exact ⟨congrArg (fun x => x.scheme) heq, congrArg (fun x => x.user) heq,
      congrArg (fun x => x.hasSegments) heq⟩
  · rintro ⟨hscheme, huser, hsegments⟩
    have hmade := (mutablePathSegments_eq_iff h text).2 ⟨hscheme, huser⟩
    obtain ⟨uri, scheme, user, host, port, path, query, fragment, segments⟩ := u
    obtain ⟨uri', scheme', user', host', port', path', query', fragment', segments'⟩ := w
    simp only [Uri.assign, Uri.mutablePathSegments, Uri.mk.injEq, Option.some.injEq] at hmade ⊢
    cases segments <;> cases segments' <;> simp_all [Uri.hasSegments]

theorem keptScheme_of_completed {s : List Byte} (h : SchemeCompleted s) :
    (recognizer octet scheme).textOf s = keptScheme octet s := by
  rw [keptScheme]
  split_ifs with hreject
  · rw [Recognizer.textOf]
    cases hk : recognizer octet scheme s with
    | accept k => exact absurd hreject (h k hk)
    | incomplete => rfl
    | reject => rfl
  · rfl

theorem keptUsers_of_completed {s : List Byte} (h : UserCompleted s) :
    (authorityAt octet s).bind (userText octet) =
      (authorityAt octet s).bind (keptUser octet) := by
  cases ht : authorityAt octet s with
  | none => rfl
  | some t => exact (keptUser_of_completed octet (h t · ht)).symm

/-- In a reference that is accepted, a scheme that is that of an absolute URI. -/
theorem scheme_isSome_iff {s : List Byte} {n : ℕ} (h : SchemeCompleted s)
    (haccept : recognizer octet URI_reference s = .accept n) :
    ((recognizer octet scheme).textOf s).isSome = true ↔
      ∃ m, recognizer octet absoluteURI s = .accept m := by
  constructor
  · intro hset
    obtain ⟨text, htext⟩ := Option.isSome_iff_exists.1 hset
    obtain ⟨k, hk, -⟩ := Recognizer.textOf_eq_some.1 htext
    cases habs : recognizer octet absoluteURI s with
    | accept m => exact ⟨m, rfl⟩
    | incomplete =>
        rw [reference_of_absoluteURI_incomplete octet habs] at haccept
        cases haccept
    | reject => exact absurd habs (h k hk)
  · rintro ⟨m, hm⟩
    obtain ⟨k, hk⟩ := absoluteURI_scheme octet hm
    rw [Recognizer.textOf, hk]
    rfl

/-- In a reference that is accepted, a user that has a host. -/
theorem authority_of_user_isSome {s : List Byte} {n : ℕ} (h : UserCompleted s)
    (haccept : recognizer octet URI_reference s = .accept n)
    (hset : ((authorityAt octet s).bind (userText octet)).isSome = true) :
    ∃ t k m, authorityAt octet s = some t ∧ recognizer octet userinfo_at t = .accept k ∧
      recognizer octet authority t = .accept m ∧ k ≤ m := by
  cases ht : authorityAt octet s with
  | none => simp [ht] at hset
  | some t =>
      rw [ht, Option.bind_some, userText_isSome_iff] at hset
      obtain ⟨k, hk⟩ := hset
      have hcomplete : recognizer octet authority t ≠ .incomplete := fun hincomplete => by
        rw [reference_incomplete octet ht hincomplete] at haccept
        cases haccept
      obtain ⟨m, hm, hle⟩ := authority_of_user octet hk (h t k ht hk) hcomplete
      exact ⟨t, k, m, rfl, hk, hm, hle⟩

/-- **No field is left behind** exactly where a scheme that is read is that of an absolute URI, a
user that is read has a host, and the alternative that is taken reads a path. -/
theorem no_stale_iff {s : List Byte} {r : ParseResult} {u : Uri Byte}
    (h : Visits octets (uriVisitors octet) .make URI_reference s {} r u) (hr : r.ok = true) :
    NoStale s u ↔ SchemeCompleted s ∧ UserCompleted s ∧ PathRead s := by
  obtain ⟨n, u, w, rfl, halt, hspec, hbesides⟩ := visits_make h hr
  obtain ⟨haccept, hscheme⟩ := sets_scheme_alt octet s {} _ u rfl halt
  have hscheme' := (sets_scheme_orElse octet s {} _ w rfl hspec).2
  have huser := (sets_user_reference octet isChoice_alt (sets_user_server_alt octet) s {} _ u rfl
    halt).2
  have huser' := (sets_user_reference octet isChoice_orElse (sets_user_server_orElse octet) s {} _ w
    rfl hspec).2
  rw [inReference_eq_bind] at huser huser'
  have hsegments : u.hasSegments = some () := leaves_reference octet s {} _ u halt (by simp)
  have hsegments' := (sets_segments_reference octet s {} _ w rfl hspec).2
  have hpath : u.hasSegments = w.hasSegments ↔ PathRead s := by
    rw [hsegments, hsegments', inPath_eq_bind, PathRead]
    cases pathAt octet s <;> simp
  have hsame := assign_eq_iff hbesides (s.take n)
  rw [hpath, hscheme, hscheme', huser, huser'] at hsame
  constructor
  · rintro ⟨⟨n', w', hw', htaken⟩, -, -⟩
    obtain ⟨rfl, rfl⟩ : n = n' ∧ w = w' := by
      rw [hspec] at hw'
      simpa using hw'
    obtain ⟨hschemes, husers, hread⟩ := hsame.1 htaken
    refine ⟨fun k hk hreject => ?_, fun t k ht hk hreject => ?_, hread⟩
    · rw [keptScheme, if_pos hreject, Recognizer.textOf, hk] at hschemes
      cases hschemes
    · rw [ht, Option.bind_some, Option.bind_some, keptUser_of_reject octet hk hreject] at husers
      have hsome := (userText_isSome_iff octet).2 ⟨k, hk⟩
      simp [husers] at hsome
  · rintro ⟨hcompleted, hhost, hread⟩
    refine ⟨⟨n, w, hspec, hsame.2 ⟨keptScheme_of_completed hcompleted,
      keptUsers_of_completed hhost, hread⟩⟩, ?_, fun hset => ?_⟩
    · change u.scheme.isSome = true ↔ _
      rw [hscheme]
      exact scheme_isSome_iff hcompleted haccept.symm
    · change u.user.isSome = true at hset
      rw [huser] at hset
      exact authority_of_user_isSome hhost haccept.symm hset

/-- A reference with a user, a host and a path. -/
theorem no_stale_iff_user : ∃ r u,
    Visits octets (uriVisitors octet) .make URI_reference (bytes "//u@h/x\n") {} r u ∧
      PathRead (bytes "//u@h/x\n") ∧ (NoStale (bytes "//u@h/x\n") u ↔
        SchemeCompleted (bytes "//u@h/x\n") ∧ UserCompleted (bytes "//u@h/x\n") ∧
          PathRead (bytes "//u@h/x\n")) := by
  obtain ⟨n, u, hu⟩ : ∃ n u, recordReference octet alt (bytes "//u@h/x\n") {} =
      .ok (.accept n, u) := ⟨7, _, by rfl⟩
  obtain ⟨r, h, hr⟩ := visits_of_reference hu
  exact ⟨r, _, h, by decide, no_stale_iff h hr⟩

/-- The first segment of a path is left behind as a scheme, a user as the user of an empty
authority, and an attempt at a path as a sequence of segments. -/
theorem stale_fields :
    (∃ r u, Visits octets (uriVisitors octet) .make URI_reference (bytes "foo/bar\n") {} r u ∧
      r.ok = true ∧ u.scheme = some (bytes "foo") ∧ ¬ NoStale (bytes "foo/bar\n") u) ∧
    (∃ r u, Visits octets (uriVisitors octet) .make URI_reference (bytes "//user@/path\n") {} r u ∧
      r.ok = true ∧ u.user = some (bytes "user") ∧ ¬ NoStale (bytes "//user@/path\n") u) ∧
    ∃ r u, Visits octets (uriVisitors octet) .make URI_reference (bytes "a:b\n") {} r u ∧
      r.ok = true ∧ u.path_segments = some [] ∧ ¬ NoStale (bytes "a:b\n") u := by
  refine ⟨?_, ?_, ?_⟩
  · obtain ⟨u, hu, hscheme⟩ : ∃ u, recordReference octet alt (bytes "foo/bar\n") {} =
        .ok (.accept 7, u) ∧ u.scheme = some (bytes "foo") := ⟨_, by rfl, by rfl⟩
    obtain ⟨r, h, hr⟩ := visits_of_reference hu
    refine ⟨r, _, h, hr, hscheme, fun hno => ?_⟩
    have hreject : recognizer octet absoluteURI (bytes "foo/bar\n") = .reject := by decide
    obtain ⟨n, hn⟩ := hno.scheme.1 (by rw [Uri.assign, hscheme]; rfl)
    rw [hreject] at hn
    cases hn
  · obtain ⟨u, hu, huser⟩ : ∃ u, recordReference octet alt (bytes "//user@/path\n") {} =
        .ok (.accept 2, u) ∧ u.user = some (bytes "user") := ⟨_, by rfl, by rfl⟩
    obtain ⟨r, h, hr⟩ := visits_of_reference hu
    refine ⟨r, _, h, hr, huser, fun hno => ?_⟩
    obtain ⟨t, k, n, ht, hk, hn, hle⟩ := hno.user (by rw [Uri.assign, huser]; rfl)
    have hat : authorityAt octet (bytes "//user@/path\n") = some (bytes "user@/path\n") := by
      decide
    obtain rfl : bytes "user@/path\n" = t := Option.some.inj (hat.symm.trans ht)
    have hfive : recognizer octet userinfo_at (bytes "user@/path\n") = .accept 5 := by
      decide
    have hzero : recognizer octet authority (bytes "user@/path\n") = .accept 0 := by decide
    rw [hfive] at hk
    rw [hzero] at hn
    cases hk
    cases hn
    omega
  · obtain ⟨u, hu, hsegments⟩ : ∃ u, recordReference octet alt (bytes "a:b\n") {} =
        .ok (.accept 3, u) ∧ u.path_segments = some [] := ⟨_, by rfl, by rfl⟩
    obtain ⟨r, h, hr⟩ := visits_of_reference hu
    refine ⟨r, _, h, hr, hsegments, fun hno => ?_⟩
    obtain ⟨w, hw, hnone⟩ : ∃ w, recordReference octet orElse (bytes "a:b\n") {} =
        .ok (.accept 3, w) ∧ w.path_segments = none := ⟨_, by rfl, by rfl⟩
    obtain ⟨n, w', hw', htaken⟩ := hno.taken
    rw [hw] at hw'
    cases hw'
    have hsame := congrArg (fun x => x.path_segments) htaken
    rw [Uri.assign, Uri.assign, hsegments, hnone] at hsame
    cases hsame

end Hittop
