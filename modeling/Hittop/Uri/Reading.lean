/-
**Where the rules of a URI can still reject.**

Once a net path has read its two slashes it rejects no more, and neither does a path once it has
read one.  What stands in the authority of a reference can therefore be said in terms of the input
alone: it is what follows the two slashes, or what follows the scheme, its colon and the two
slashes.

Main definitions:

* `Hittop.inNetPath`, `Hittop.inAbsoluteURI` — something about the text in an authority.

Main results:

* `Hittop.commits_netPath`, `Hittop.commits_absoluteURI` — where a rule rejects, no authority was
  begun;
* `Hittop.absoluteURI_reject` — an absolute URI begins with a letter.
-/

import Hittop.Grammars

set_option relaxedAutoImplicit false
set_option autoImplicit false

namespace Hittop

open Uri.Grammar

variable {κ β : Type} (toInt : κ → ℤ)

/-- Something about what follows `"//"`. -/
def inNetPath (p : List κ → Option β) : List κ → Option β :=
  (recognizer toInt (lit '/')).after ((recognizer toInt (lit '/')).after p)

/-- Something about what follows a scheme, a colon and `"//"`. -/
def inAbsoluteURI (p : List κ → Option β) : List κ → Option β :=
  (recognizer toInt scheme).after ((recognizer toInt (lit ':')).after (inNetPath toInt p))

/-! ### Rules that never reject -/

theorem lenient_server : (recognizer toInt server).Lenient := Recognizer.lenient_opt _

theorem lenient_pathSegments : (recognizer toInt path_segments).Lenient := by
  rw [path_segments, recognizer_pair, Uri.Grammar.segment, recognizer_pair]
  exact ((Recognizer.lenient_star _).seq (Recognizer.lenient_star _)).seq
    (Recognizer.lenient_star _)

theorem lenient_authority : (recognizer toInt authority).Lenient := by
  intro s
  rw [authority, recognizer_choice, Recognizer.alt_of_ne_reject (lenient_server toInt s)]
  exact lenient_server toInt s

/-! ### Rules that reject before the authority only -/

section Commits

variable (p : List κ → Option β)

theorem commits_netPath : (recognizer toInt net_path).Commits (inNetPath toInt p) := by
  rw [net_path, recognizer_concat, recognizer_concat, recognizer_pair]
  have hrest : (Recognizer.seq (recognizer toInt authority)
    (recognizer toInt (.opt abs_path))).Lenient :=
    (lenient_authority toInt).seq (Recognizer.lenient_opt _)
  exact ((hrest.commits _).seq).seq

theorem commits_hierPart : (recognizer toInt hier_part).Commits (inNetPath toInt p) := by
  rw [hier_part, recognizer_pair, recognizer_choice]
  exact (commits_netPath toInt p).alt.seq_lenient (Recognizer.lenient_opt _)

theorem commits_absoluteURI : (recognizer toInt absoluteURI).Commits (inAbsoluteURI toInt p) := by
  rw [absoluteURI, recognizer_concat, recognizer_pair, recognizer_choice]
  exact ((commits_hierPart toInt p).alt.seq).seq

theorem commits_relativeURI : (recognizer toInt relativeURI).Commits (inNetPath toInt p) := by
  rw [relativeURI, recognizer_pair, recognizer_either]
  exact (commits_netPath toInt p).alt.seq_lenient (Recognizer.lenient_opt _)

end Commits

/-! ### First characters -/

variable {toInt}

/-- A scheme begins with a letter. -/
theorem scheme_reject {x : Char} (hx : Cctype.test .isalpha (ch x) = false) {s : List κ} {n : ℕ}
    (h : recognizer toInt (lit x) s = .accept n) : recognizer toInt scheme s = .reject := by
  cases s with
  | nil =>
      rw [recognizer_lit] at h
      cases h
  | cons c s =>
      have hc : toInt c = ch x := by
        rw [recognizer_lit, Recognizer.satisfy_cons] at h
        by_contra hne
        simp [hne] at h
      rw [scheme, recognizer_forwardRef _ _ rfl]
      change recognizer toInt (.concat _) _ = _
      rw [recognizer_pair, alpha, recognizer_charFilter]
      refine Recognizer.seq_of_reject ?_
      rw [Recognizer.satisfy_cons, hc, hx]
      rfl

/-- An absolute URI begins with a letter. -/
theorem absoluteURI_reject {x : Char} (hx : Cctype.test .isalpha (ch x) = false)
    {s : List κ} {n : ℕ}
    (h : recognizer toInt (lit x) s = .accept n) : recognizer toInt absoluteURI s = .reject := by
  rw [absoluteURI, recognizer_concat]
  exact Recognizer.seq_of_reject (scheme_reject hx h)

/-- Where a scheme is read, the text begins with nothing else than a letter. -/
theorem lit_reject_of_scheme {x : Char} (hx : Cctype.test .isalpha (ch x) = false) {s : List κ}
    {n : ℕ} (h : recognizer toInt scheme s = .accept n) :
    recognizer toInt (lit x) s = .reject := by
  cases hs : recognizer toInt (lit x) s with
  | accept k =>
      rw [scheme_reject hx hs] at h
      cases h
  | incomplete =>
      cases s with
      | nil =>
          rw [scheme, recognizer_forwardRef _ _ rfl] at h
          cases h
      | cons c s =>
          rw [recognizer_lit, Recognizer.satisfy_cons] at hs
          split at hs <;> cases hs
  | reject => rfl

theorem inNetPath_eq_none {p : List κ → Option β} {s : List κ}
    (h : recognizer toInt absoluteURI s ≠ .reject) : inNetPath toInt p s = none := by
  cases hs : recognizer toInt (lit '/') s with
  | accept n => exact absurd (absoluteURI_reject (by decide) hs) h
  | incomplete => exact Recognizer.after_of_incomplete hs
  | reject => exact Recognizer.after_of_reject hs

/-- Where a text begins with something else than a letter, there is no scheme. -/
theorem inAbsoluteURI_eq_none {p : List κ → Option β} {x : Char}
    (hx : Cctype.test .isalpha (ch x) = false) {s : List κ}
    (h : recognizer toInt (lit x) s ≠ .reject) : inAbsoluteURI toInt p s = none := by
  cases hs : recognizer toInt (lit x) s with
  | accept n => exact commits_absoluteURI toInt p s (absoluteURI_reject hx hs)
  | incomplete =>
      have hnil : s = [] := by
        cases s with
        | nil => rfl
        | cons c s =>
            rw [recognizer_lit, Recognizer.satisfy_cons] at hs
            split at hs <;> cases hs
      subst hnil
      refine Recognizer.after_of_incomplete ?_
      rw [scheme, recognizer_forwardRef _ _ rfl]
      rfl
  | reject => exact absurd hs h

theorem absPath_eq_reject_iff {s : List κ} :
    recognizer toInt abs_path s = .reject ↔ recognizer toInt (lit '/') s = .reject := by
  rw [abs_path, recognizer_pair]
  exact Recognizer.seq_eq_reject_iff (lenient_pathSegments toInt)

/-- The alternatives of a target that begin with a slash reject alike. -/
theorem hierPart_reject {s : List κ} (h : recognizer toInt abs_path s = .reject) :
    recognizer toInt hier_part s = .reject := by
  have hnet : recognizer toInt net_path s = .reject := by
    rw [net_path, recognizer_concat]
    exact Recognizer.seq_of_reject (absPath_eq_reject_iff.1 h)
  rw [hier_part, recognizer_pair, recognizer_choice]
  exact Recognizer.seq_of_reject ((Recognizer.alt_of_reject hnet).trans h)

end Hittop
