/-
**The segments of a path.**

The visitor of the segments is called with the rule `segment`, and the first part of a relative path
is a `rel_segment`.  A path that begins with a slash is therefore put together from its segments
again, and a relative path never is.

Main definitions:

* `Hittop.Uri.Assembled`, `Hittop.Uri.Headless` — a path with its segments, and one whose first part
  is missing from them;
* `Hittop.Reassembles` — the path is what its segments are put together to.

Main results:

* `Hittop.leads_absPath`, `Hittop.leads_relPath` — what the two rules leave;
* `Hittop.reference_path` — what an accepted reference leaves;
* `Hittop.segments_reassemble_iff` — the segments give the path exactly if it is not relative.
-/

import Hittop.Uri.Stale
import Hittop.Uri.Taking

set_option relaxedAutoImplicit false
set_option autoImplicit false

namespace Hittop

open Meaning
open Recognizer (Ensures)
open Uri.Grammar (lit)
open Uri.Text (path)

/-! ### The path in a state -/

namespace Uri

/-- The path and its segments. -/
def pathParts (u : Uri Byte) : Option (List Byte) × Option (List (List Byte)) :=
  (u.path, u.path_segments)

/-- No path, and no segments. -/
def Pathless (u : Uri Byte) : Prop := u.path = none ∧ u.path_segments.getD [] = []

/-- Where there is a path, it is that of the segments. -/
def Assembled (u : Uri Byte) : Prop :=
  ∀ x, u.path = some x → ∃ segments, segments ≠ [] ∧ x = Text.path segments ∧
    u.path_segments = some segments

/-- The segments are those behind the first part of the path. -/
def Headless (u : Uri Byte) : Prop :=
  ∃ first segments, first ≠ [] ∧ first.head? ≠ some 47 ∧
    u.path = some (first ++ Text.path segments) ∧ u.path_segments = some segments

theorem Pathless.assembled {u : Uri Byte} (h : Pathless u) : Assembled u := by
  intro x hx
  rw [h.1] at hx
  cases hx

end Uri

open Uri (Pathless Assembled Headless)

/-! ### Rules without a path -/

section Keeps

theorem pathParts_pathless {u u' : Uri Byte} (h : u'.pathParts = u.pathParts) (hu : Pathless u) :
    Pathless u' := by
  obtain ⟨hpath, hsegments⟩ := Prod.mk.inj h
  rwa [Pathless, hpath, hsegments]

theorem pathParts_assembled {u u' : Uri Byte} (h : u'.pathParts = u.pathParts) (hu : Assembled u) :
    Assembled u' := by
  obtain ⟨hpath, hsegments⟩ := Prod.mk.inj h
  rwa [Assembled, hpath, hsegments]

theorem pathParts_headless {u u' : Uri Byte} (h : u'.pathParts = u.pathParts) (hu : Headless u) :
    Headless u' := by
  obtain ⟨hpath, hsegments⟩ := Prod.mk.inj h
  rwa [Headless, hpath, hsegments]

theorem keeps_pathParts_authority :
    Keeps Uri.pathParts (recordAuthority octet alt) (recognizer octet Uri.Grammar.authority) :=
  keeps_authority octet isChoice_alt (fun _ _ => rfl) (fun _ _ => rfl) (fun _ _ => rfl) fun _ => rfl

theorem keeps_pathParts_query : Keeps Uri.pathParts (recordQuery octet alt)
    (recognizer octet (.opt (.concat [lit '?', Uri.Grammar.query]))) :=
  Silent.keeps (m := recordQuery octet alt) (silent_ledIn octet isChoice_alt '?' _ fun _ _ => rfl)

theorem keeps_pathParts_fragment : Keeps Uri.pathParts (recordFragment octet alt)
    (recognizer octet (.opt (.concat [lit '#', Uri.Grammar.fragment]))) :=
  Silent.keeps (m := recordFragment octet alt) (silent_ledIn octet isChoice_alt '#' _ fun _ _ =>
    rfl)

end Keeps

/-! ### Paths -/

section Path

variable {s : List Byte} {n : ℕ}

/-- One slash and the segment behind it. -/
theorem slashSegment_accept {u u' : Uri Byte}
    (h : ((unrecorded octet (lit '/')).seq
      (record (recognizer octet Uri.Grammar.segment) Uri.emplaceSegment)) s u =
        .ok (.accept n, u')) :
    ∃ x, bytes "/" ++ x ≠ [] ∧ s.take n = bytes "/" ++ x ∧ u' = u.emplaceSegment x := by
  rcases seq_cases h with ⟨k, u₁, w, hslash, hsegment, hw⟩ | ⟨-, hv⟩
  · rw [unrecorded, lift_apply, Except.ok.injEq, Prod.mk.injEq,
      lit_eq_accept (b := 47) rfl] at hslash
    obtain ⟨⟨rfl, t, rfl⟩, rfl⟩ := hslash
    rcases record_cases hsegment with ⟨j, rfl, -, rfl⟩ | ⟨hno, -, -⟩
    · cases hw
      refine ⟨t.take j, by simp [bytes], ?_, rfl⟩
      rw [Nat.add_comm]
      rfl
    · obtain ⟨j, rfl, -⟩ := Verdict.advance_eq_accept.1 hw.symm
      exact absurd rfl (hno j)
  · exact absurd rfl (hv n)

theorem slashSegment_reject {u u' : Uri Byte}
    (h : ((unrecorded octet (lit '/')).seq
      (record (recognizer octet Uri.Grammar.segment) Uri.emplaceSegment)) s u = .ok (.reject, u')) :
    u' = u := by
  rcases seq_cases h with ⟨k, u₁, w, hslash, hsegment, hw⟩ | ⟨hslash, -⟩
  · obtain rfl : w = .reject := Verdict.advance_eq_reject.1 hw.symm
    rcases record_cases hsegment with ⟨j, hj, -, -⟩ | ⟨-, -, rfl⟩
    · cases hj
    · rw [unrecorded, lift_apply, Except.ok.injEq, Prod.mk.injEq] at hslash
      exact hslash.2.symm
  · rw [unrecorded, lift_apply, Except.ok.injEq, Prod.mk.injEq] at hslash
    exact hslash.2.symm

theorem silent_slashSegment : Silent (fun _ => ()) ((unrecorded octet (lit '/')).seq
    (record (recognizer octet Uri.Grammar.segment) Uri.emplaceSegment))
    (.seq (recognizer octet (lit '/')) (recognizer octet Uri.Grammar.segment)) :=
  Silent.seq (Silent.lift _) (Silent.record fun _ _ => rfl)

/-- **The segments that were taken** give the text, and they are added to those that were there. -/
theorem segments_accept {u u' : Uri Byte} (hu : u.path_segments ≠ none)
    (h : recordSegments octet s u = .ok (.accept n, u')) :
    ∃ segments, segments ≠ [] ∧ s.take n = path segments ∧
      u' = { u with path_segments := some (u.path_segments.getD [] ++ segments) } := by
  rw [recordSegments, ← Meaning.seq_assoc] at h
  rcases seq_cases h with ⟨k, u₁, w, hfirst, hloop, hw⟩ | ⟨-, hv⟩
  · obtain ⟨x, -, htake, rfl⟩ := slashSegment_accept hfirst
    obtain ⟨j, rfl, rfl⟩ := Verdict.advance_eq_accept.1 hw.symm
    obtain ⟨more, hmore, rfl⟩ := loop_pieces silent_slashSegment.bounded
      (fun s st n st' hrun => slashSegment_accept hrun) (fun s st st' => slashSegment_reject) hloop
    refine ⟨x :: more, by simp, ?_, ?_⟩
    · rw [List.take_add, htake, hmore]
      rfl
    · rw [← foldl_emplaceSegment u hu]
      rfl
  · exact absurd rfl (hv n)

theorem segments_reject {u u' : Uri Byte} (h : recordSegments octet s u = .ok (.reject, u')) :
    u' = u := by
  have hsettles := silent_slashSegment.loop.keeps.settles (Recognizer.lenient_star _)
  rw [recordSegments, ← Meaning.seq_assoc] at h
  rcases seq_cases h with ⟨k, u₁, w, hfirst, hloop, hw⟩ | ⟨hfirst, -⟩
  · obtain rfl : w = .reject := Verdict.advance_eq_reject.1 hw.symm
    exact absurd hloop (hsettles _ _ _)
  · exact slashSegment_reject hfirst

theorem path_cases {m : Meaning Byte (Uri Byte)} {u u' : Uri Byte} {v : Verdict}
    (h : recordPath m s u = .ok (v, u')) : ∃ u₁, m s u.mutablePathSegments = .ok (v, u₁) ∧
      ((∃ n, v = .accept n ∧ u' = u₁.assignPath (s.take n)) ∨
        ((∀ n, v ≠ .accept n) ∧ u' = u₁)) := by
  have hfinish : m.finish (fun text u => .ok (u.assignPath text)) id s u.mutablePathSegments =
      .ok (v, u') := h
  obtain ⟨u₁, hrun, hend⟩ := finish_cases hfinish
  rcases hend with ⟨n, rfl, hassign⟩ | ⟨hno, hsame⟩
  · cases hassign
    exact ⟨u₁, hrun, .inl ⟨n, rfl, rfl⟩⟩
  · exact ⟨u₁, hrun, .inr ⟨hno, hsame⟩⟩

theorem pathless_mutablePathSegments {u : Uri Byte} (hu : Pathless u) :
    u.mutablePathSegments = { u with path_segments := some [] } := by
  rw [Uri.mutablePathSegments, hu.2]

/-- **A path leaves itself with its segments**, and nothing where it is rejected. -/
theorem leads_absPath : Leads Pathless Assembled (recordAbsPath octet) := by
  intro s u v u' hu hrun
  obtain ⟨u₁, hsegments, ⟨n, rfl, rfl⟩ | ⟨hno, rfl⟩⟩ := path_cases hrun
  · rw [pathless_mutablePathSegments hu] at hsegments
    obtain ⟨segments, hne, htake, rfl⟩ := segments_accept (by simp) hsegments
    refine ⟨fun _ _ x hx => ⟨segments, hne, ?_, rfl⟩, by simp⟩
    rw [← htake]
    exact (Option.some.inj hx).symm
  · refine ⟨fun n hn => absurd hn (hno n), ?_⟩
    rintro rfl
    rw [segments_reject hsegments, pathless_mutablePathSegments hu]
    exact ⟨hu.1, rfl⟩

/-- The first part of a relative path is not empty and has no slash in front. -/
theorem relSegment_ensures :
    Ensures (recognizer octet Uri.Grammar.rel_segment) fun x => x ≠ [] ∧ x.head? ≠ some 47 := by
  have hpiece : recognizer octet (.either [Uri.Grammar.unreserved, Uri.Grammar.escaped, lit ';',
      lit '@', lit '&', lit '=', lit '+', lit '$', lit ',']) = pieceOf ";@&=+$," :=
    recognizer_unreserved ";@&=+$," rfl rfl (by decide)
  have hclass : Ensures (Recognizer.satisfy (Uri.Text.urlChar ";@&=+$,"))
      fun x => x ≠ [] ∧ x.head? ≠ some 47 := by
    refine Ensures.satisfy fun c hc => ⟨by simp, ?_⟩
    rintro h47
    cases h47
    exact absurd hc (by decide)
  have htrivial (f : Recognizer Byte) : Ensures f fun _ => True := fun _ _ _ => trivial
  have hpercent : Ensures (Recognizer.satisfy fun c : Byte => decide (octet c = ch '%'))
      fun x => x ≠ [] ∧ x.head? ≠ some 47 := by
    refine Ensures.satisfy fun c hc => ⟨by simp, ?_⟩
    rintro h47
    cases h47
    exact absurd hc (by decide)
  have happend : ∀ x y : List Byte, x ≠ [] ∧ x.head? ≠ some 47 → True →
      x ++ y ≠ [] ∧ (x ++ y).head? ≠ some 47 := by
    rintro x y ⟨hne, hhead⟩ -
    obtain ⟨c, x, rfl⟩ := List.exists_cons_of_ne_nil hne
    exact ⟨by simp, hhead⟩
  rw [Uri.Grammar.rel_segment, recognizer_atLeast_one, hpiece, pieceOf, recognizer_escaped]
  exact (hclass.alt (hpercent.seq_of (htrivial _) happend)).seq_of (htrivial _) happend

/-- **A relative path leaves its first part out** of the segments. -/
theorem leads_relPath : Leads Pathless Headless (recordRelPath octet alt) := by
  intro s u v u' hu hrun
  obtain ⟨u₁, hparts, hend⟩ := path_cases hrun
  rw [pathless_mutablePathSegments hu] at hparts
  rcases seq_cases hparts with ⟨k, u₂, w, hfirst, hrest, hw⟩ | ⟨hfirst, hv⟩
  · rw [unrecorded, lift_apply, Except.ok.injEq, Prod.mk.injEq] at hfirst
    obtain ⟨hfirst, rfl⟩ := hfirst
    obtain ⟨hne, hhead⟩ := relSegment_ensures s k hfirst
    -- the segments are those behind the first part, if there are any
    have hsegments : ∀ j, w = .accept j → ∃ segments, (s.drop k).take j = path segments ∧
        u₁ = { u with path_segments := some segments } := by
      rintro j rfl
      rcases alt_cases hrest with ⟨hrest, -⟩ | ⟨u₃, hreject, hrest⟩
      · obtain ⟨segments, -, htake, rfl⟩ := segments_accept (by simp) hrest
        exact ⟨segments, htake, rfl⟩
      · rw [lift_apply, segments_reject hreject] at hrest
        cases hrest
        exact ⟨[], rfl, rfl⟩
    have hsettles : w ≠ .reject := by
      rintro rfl
      rcases alt_cases hrest with ⟨-, hno⟩ | ⟨u₃, -, hrest⟩
      · exact hno rfl
      · cases hrest
    rcases hend with ⟨n, rfl, rfl⟩ | ⟨hno, rfl⟩
    · obtain ⟨j, rfl, rfl⟩ := Verdict.advance_eq_accept.1 hw.symm
      obtain ⟨segments, htake, rfl⟩ := hsegments j rfl
      refine ⟨fun _ _ => ⟨s.take k, segments, hne, hhead, ?_, rfl⟩, by simp⟩
      rw [Uri.assignPath, List.take_add, htake]
    · refine ⟨fun n hn => absurd hn (hno n), fun hv => absurd ?_ hsettles⟩
      exact Verdict.advance_eq_reject.1 (hw.symm.trans hv)
  · refine ⟨fun n hn => absurd hn (hv n), ?_⟩
    rintro rfl
    rw [unrecorded, lift_apply, Except.ok.injEq, Prod.mk.injEq] at hfirst
    rcases hend with ⟨n, hn, -⟩ | ⟨-, rfl⟩
    · cases hn
    · rw [← hfirst.2]
      exact ⟨hu.1, rfl⟩

end Path

/-! ### The rules around a path -/

section Around

theorem Keeps.pathless {m : Meaning Byte (Uri Byte)} {f : Recognizer Byte}
    (h : Keeps Uri.pathParts m f) : Leads Pathless Pathless m :=
  h.leads fun _ _ => pathParts_pathless

theorem Keeps.assembled {m : Meaning Byte (Uri Byte)} {f : Recognizer Byte}
    (h : Keeps Uri.pathParts m f) : Leads Assembled Assembled m :=
  h.leads fun _ _ => pathParts_assembled

theorem pathless_lift (f : Recognizer Byte) : Leads Pathless Pathless (Meaning.lift f) :=
  Keeps.pathless (keeps_lift f)

theorem assembled_lift (f : Recognizer Byte) : Leads Pathless Assembled (Meaning.lift f) :=
  (pathless_lift f).mono fun _ => Uri.Pathless.assembled

theorem leads_netPath : Leads Pathless Assembled (recordNetPath octet alt) :=
  (pathless_lift _).stable_seq ((pathless_lift _).stable_seq
    (keeps_pathParts_authority.pathless.stable_seq (leads_absPath.alt (assembled_lift _))))

theorem settles_pathQuery : Settles (recordQuery octet alt) :=
  keeps_pathParts_query.settles (Recognizer.lenient_opt _)

theorem leads_hierPart : Leads Pathless Assembled (recordHierPart octet alt) :=
  (leads_netPath.alt leads_absPath).seq_stable keeps_pathParts_query.assembled settles_pathQuery

theorem leads_absoluteURI : Leads Pathless Assembled (recordAbsoluteURI octet alt) := by
  have hscheme : Keeps Uri.pathParts
      (record (recognizer octet Uri.Grammar.scheme) Uri.assignScheme)
      (recognizer octet Uri.Grammar.scheme) :=
    Silent.keeps (Silent.record fun _ _ => rfl)
  exact hscheme.pathless.stable_seq ((pathless_lift _).stable_seq
    (leads_hierPart.alt (assembled_lift _)))

/-- Of an accepted relative URI nothing is said here. -/
theorem leads_relativeURI : Leads Pathless (fun _ => True) (recordRelativeURI octet alt) := by
  have hpath := (leads_netPath.mono fun _ _ => trivial).alt
    ((leads_absPath.mono fun _ _ => trivial).alt (leads_relPath.mono fun _ _ => trivial))
  exact hpath.seq_stable (fun _ _ _ _ _ _ => ⟨fun _ _ => trivial, fun _ => trivial⟩)
    settles_pathQuery

end Around

/-! ### References -/

section Reference

variable {s : List Byte} {n : ℕ} {u : Uri Byte}

/-- The input is not a relative path: it begins with a slash, or an absolute URI is accepted. -/
def Rooted (s : List Byte) : Prop :=
  s.head? = some 47 ∨ ∃ r, Parses octets Uri.Grammar.absoluteURI s r ∧ r.ok = true

theorem rooted_iff : Rooted s ↔
    s.head? = some 47 ∨ ∃ n, recognizer octet Uri.Grammar.absoluteURI s = .accept n := by
  obtain ⟨r, hr, hverdict⟩ := exists_parses octet_inLookup (n := 64) s
    (g := Uri.Grammar.absoluteURI) (of_decide_eq_true rfl) rfl
  refine or_congr_right ⟨?_, ?_⟩
  · rintro ⟨r', hr', hok⟩
    obtain rfl := hr'.unique hr
    rw [ParseResult.eq_success hok, ParseResult.verdict_success] at hverdict
    exact ⟨_, hverdict.symm⟩
  · rintro ⟨n, hn⟩
    rw [hn, ParseResult.verdict_eq_accept] at hverdict
    exact ⟨r, hr, by rw [hverdict]; rfl⟩

/-- A net path begins with a slash. -/
theorem netPath_head {u' : Uri Byte} (h : recordNetPath octet alt s u = .ok (.accept n, u')) :
    s.head? = some 47 := by
  rcases seq_cases h with ⟨k, u₁, w, hslash, -, -⟩ | ⟨-, hv⟩
  · rw [unrecorded, lift_apply, Except.ok.injEq, Prod.mk.injEq,
      lit_eq_accept (b := 47) rfl] at hslash
    obtain ⟨⟨-, t, rfl⟩, -⟩ := hslash
    rfl
  · exact absurd rfl (hv n)

/-- A path begins with a slash, and where none is taken there is none. -/
theorem absPath_head {u' : Uri Byte} {v : Verdict} (h : recordAbsPath octet s u = .ok (v, u')) :
    (∀ n, v = .accept n → s.head? = some 47) ∧ (v = .reject → s.head? ≠ some 47) := by
  obtain ⟨hv, -⟩ := (silent_absPath octet trivialUntouched.toPathFree).keeps s u v u' h
  refine ⟨fun n hn => ?_, fun hreject h47 => ?_⟩
  · rw [hn, Uri.Grammar.abs_path, recognizer_pair] at hv
    obtain ⟨k, -, hk, -⟩ := Recognizer.seq_eq_accept.1 hv.symm
    obtain ⟨-, t, rfl⟩ := (lit_eq_accept (b := 47) rfl).1 hk
    rfl
  · have hslash := absPath_eq_reject_iff.1 (hv.symm.trans hreject)
    obtain ⟨t, rfl⟩ : ∃ t, s = 47 :: t := by
      cases s with
      | nil => cases h47
      | cons c t =>
          rw [List.head?_cons, Option.some.injEq] at h47
          exact ⟨t, by rw [h47]⟩
    rw [(lit_eq_accept (b := 47) rfl).2 ⟨rfl, t, rfl⟩] at hslash
    cases hslash

/-- What an accepted relative URI leaves. -/
theorem relativeURI_path {u₁ : Uri Byte} (hu : Pathless u₁)
    (h : recordRelativeURI octet alt s u₁ = .ok (.accept n, u)) :
    s.head? = some 47 ∧ Assembled u ∨ s.head? ≠ some 47 ∧ Headless u := by
  rcases seq_cases h with ⟨k, u₂, w, hpath, hquery, -⟩ | ⟨-, hv⟩
  · have hkept := (keeps_pathParts_query _ _ _ _ hquery).2
    rcases alt_cases hpath with ⟨hnet, -⟩ | ⟨u₃, hnet, hpath⟩
    · have hassembled := (leads_netPath _ _ _ _ hu hnet).1 k rfl
      exact .inl ⟨netPath_head hnet, pathParts_assembled hkept hassembled⟩
    · have hu₃ := (leads_netPath _ _ _ _ hu hnet).2 rfl
      rcases alt_cases hpath with ⟨habs, -⟩ | ⟨u₄, habs, hrel⟩
      · have hassembled := (leads_absPath _ _ _ _ hu₃ habs).1 k rfl
        exact .inl ⟨(absPath_head habs).1 k rfl, pathParts_assembled hkept hassembled⟩
      · have hu₄ := (leads_absPath _ _ _ _ hu₃ habs).2 rfl
        have hheadless := (leads_relPath _ _ _ _ hu₄ hrel).1 k rfl
        exact .inr ⟨(absPath_head habs).2 rfl, pathParts_headless hkept hheadless⟩
  · exact absurd rfl (hv n)

/-- **What an accepted reference leaves**, if it leaves a path. -/
theorem reference_path (h : recordReference octet alt s {} = .ok (.accept n, u))
    (hpath : u.path ≠ none) : Rooted s ∧ Assembled u ∨ ¬ Rooted s ∧ Headless u := by
  have hfresh : Pathless ({} : Uri Byte) := ⟨rfl, rfl⟩
  have hverdict := fun v u₁ (habs : recordAbsoluteURI octet alt s {} = .ok (v, u₁)) =>
    (sets_scheme_absoluteURI octet isChoice_alt s {} v u₁ rfl habs).1
  rcases seq_cases h with ⟨k, u₁, w, hchoice, hfragment, -⟩ | ⟨-, hv⟩
  · have hkept := (keeps_pathParts_fragment _ _ _ _ hfragment).2
    rcases alt_cases hchoice with ⟨hchoice, -⟩ | ⟨u₂, hchoice, hnothing⟩
    · rcases alt_cases hchoice with ⟨habs, -⟩ | ⟨u₂, habs, hrel⟩
      · have hassembled := (leads_absoluteURI _ _ _ _ hfresh habs).1 k rfl
        exact .inl ⟨rooted_iff.2 (.inr ⟨k, (hverdict _ _ habs).symm⟩),
          pathParts_assembled hkept hassembled⟩
      · have hu₂ := (leads_absoluteURI _ _ _ _ hfresh habs).2 rfl
        rcases relativeURI_path hu₂ hrel with ⟨hhead, hassembled⟩ | ⟨hhead, hheadless⟩
        · exact .inl ⟨.inl hhead, pathParts_assembled hkept hassembled⟩
        · refine .inr ⟨fun hrooted => ?_, pathParts_headless hkept hheadless⟩
          rcases rooted_iff.1 hrooted with h47 | ⟨j, hj⟩
          · exact hhead h47
          · rw [← hverdict _ _ habs] at hj
            cases hj
    · -- neither an absolute nor a relative URI
      rcases alt_cases hchoice with ⟨-, hno⟩ | ⟨u₃, habs, hrel⟩
      · exact absurd rfl hno
      · have hu₃ := (leads_absoluteURI _ _ _ _ hfresh habs).2 rfl
        have hu₂ := (leads_relativeURI _ _ _ _ hu₃ hrel).2 rfl
        cases hnothing
        exact absurd (pathParts_pathless hkept hu₂).1 hpath
  · exact absurd rfl (hv n)

/-! ### When the segments give the path -/

/-- A path that begins with a slash is its segments with slashes in front, and another one is its
segments with slashes between them. -/
def Reassembles (x : List Byte) (segments : List (List Byte)) : Prop :=
  (x.head? = some 47 → x = path segments) ∧
    (x.head? ≠ some 47 → x = (bytes "/").intercalate segments)

theorem reassembles_assembled {x : List Byte} (hu : Assembled u) (hx : u.path = some x) :
    Reassembles x (u.path_segments.getD []) := by
  obtain ⟨segments, hne, rfl, hsegments⟩ := hu x hx
  rw [hsegments, Option.getD_some]
  obtain ⟨y, segments, rfl⟩ := List.exists_cons_of_ne_nil hne
  exact ⟨fun _ => rfl, fun h47 => absurd rfl h47⟩

/-- The first part of a relative path is missing. -/
theorem not_reassembles_headless {x : List Byte} (hu : Headless u) (hx : u.path = some x) :
    ¬ Reassembles x (u.path_segments.getD []) := by
  rintro ⟨-, hrelative⟩
  obtain ⟨first, segments, hne, hhead, hpath, hsegments⟩ := hu
  obtain rfl : first ++ path segments = x := Option.some.inj (hpath.symm.trans hx)
  obtain ⟨c, first, rfl⟩ := List.exists_cons_of_ne_nil hne
  have hjoined := congrArg List.length (hrelative hhead)
  rw [hsegments, Option.getD_some] at hjoined
  cases segments with
  | nil => simp [path, List.intercalate] at hjoined
  | cons y segments =>
      -- the path is longer by its first part and by the slash after it
      rw [List.intercalate_cons_flatMap, path, List.flatMap_cons] at hjoined
      simp only [List.length_append, List.length_cons] at hjoined
      omega

/-- **The segments give the path** exactly if the input is not a relative path. -/
theorem segments_reassemble_iff {r : ParseResult} {x : List Byte}
    (h : Visits octets (uriVisitors octet) .make Uri.Grammar.URI_reference s {} r u)
    (hr : r.ok = true) (hx : u.path = some x) :
    Reassembles x (u.path_segments.getD []) ↔ Rooted s := by
  obtain ⟨n, u₁, w, rfl, hreference, -, -⟩ := visits_make h hr
  change u₁.path = some x at hx
  change Reassembles x (u₁.path_segments.getD []) ↔ _
  have hpath : u₁.path ≠ none := by simp [hx]
  rcases reference_path hreference hpath with ⟨hrooted, hassembled⟩ | ⟨hrelative, hheadless⟩
  · exact iff_of_true (reassembles_assembled hassembled hx) hrooted
  · exact iff_of_false (not_reassembles_headless hheadless hx) hrelative

/-- An absolute URI with a path of two segments. -/
theorem segments_reassemble_iff_absolute : ∃ r u,
    Visits octets (uriVisitors octet) .make Uri.Grammar.URI_reference (bytes "s://h/a/b\n") {} r u ∧
      (Reassembles (bytes "/a/b") (u.path_segments.getD []) ↔ Rooted (bytes "s://h/a/b\n")) := by
  obtain ⟨u, hu, hpath⟩ : ∃ u, recordReference octet alt (bytes "s://h/a/b\n") {} =
      .ok (.accept 9, u) ∧ u.path = some (bytes "/a/b") := ⟨_, by rfl, by rfl⟩
  obtain ⟨r, h, hr⟩ := visits_of_reference hu
  exact ⟨r, _, h, segments_reassemble_iff h hr hpath⟩

/-- The relative path `a/b` has only the segment `b`. -/
theorem segments_headless : ∃ r u,
    Visits octets (uriVisitors octet) .make Uri.Grammar.URI_reference (bytes "a/b\n") {} r u ∧
      r.ok = true ∧ u.path = some (bytes "a/b") ∧
      ¬ Reassembles (bytes "a/b") (u.path_segments.getD []) := by
  obtain ⟨u, hu, hpath, hsegments⟩ : ∃ u, recordReference octet alt (bytes "a/b\n") {} =
      .ok (.accept 3, u) ∧ u.path = some (bytes "a/b") ∧ u.path_segments = some [bytes "b"] :=
    ⟨_, by rfl, by rfl, by rfl⟩
  obtain ⟨r, h, hr⟩ := visits_of_reference hu
  refine ⟨r, _, h, hr, hpath, fun hreassembles => ?_⟩
  have hjoined := hreassembles.2 (by decide)
  change bytes "a/b" = (bytes "/").intercalate (u.path_segments.getD []) at hjoined
  rw [hsegments] at hjoined
  exact absurd hjoined (by decide)

end Reference

end Hittop
