/-
**What the parse of a URI does with the texts of its rules.**

A path, a query and a fragment are taken where the text that follows cannot continue them, and are
assigned as they are.

Main definitions:

* `Hittop.Uri.Text.led`, `Hittop.Uri.Text.reference` — an optional part with the character that
  leads it in, and a path with such parts;
* `Hittop.Uri.assignSegments`, `Hittop.Uri.assignReference` — what is assigned for a path, and for a
  path with a query and a fragment.

Main results:

* `Hittop.takes_absPath`, `Hittop.takes_query`, `Hittop.takes_fragment` — the parts;
* `Hittop.takes_pathReference` — a path with its query and its fragment.
-/

import Hittop.Effects
import Hittop.Uri.Recording
import Hittop.Uri.Texts

set_option relaxedAutoImplicit false
set_option autoImplicit false

namespace Hittop

open scoped Computability
open Meaning
open Uri.Grammar (lit)

/-- Nothing, or a part behind the character that leads it in. -/
def Uri.Text.led (lead : String) : Option (List Byte) → List Byte
  | none => []
  | some x => bytes lead ++ x

/-- A path with these segments, with a query and a fragment if they are there. -/
def Uri.Text.reference (segments : List (List Byte)) (q f : Option (List Byte)) : List Byte :=
  path segments ++ led "?" q ++ led "#" f

/-- A path, with its segments added to those that are there. -/
def Uri.assignSegments (segments : List (List Byte)) (u : Uri Byte) : Uri Byte :=
  { u with
    path := some (Uri.Text.path segments)
    path_segments := some (u.path_segments.getD [] ++ segments) }

open Uri.Text

/-- A character that can stand in a path. -/
abbrev pathChar : Byte → Bool := urlChar "/;:@&=+$,"

/-- A character that can stand in a reference. -/
abbrev referenceChar : Byte → Bool := urlChar ";/?:@&=+$,#"

/-- What follows a part: the next part, or what follows that. -/
theorem Stops.led {p : Byte → Bool} {lead : String} {c : Byte} (hlead : bytes lead = [c])
    (hp : p c = false) (hc : c ≠ 37) (part : Option (List Byte)) {y : List Byte} (hy : Stops p y) :
    Stops p (led lead part ++ y) := by
  cases part with
  | none => exact hy
  | some x =>
      rw [Uri.Text.led, hlead]
      exact .cons hp hc _

/-! ### Paths -/

section Path

variable {segments : List (List Byte)} {y : List Byte}

theorem foldl_emplaceSegment (u : Uri Byte) (h : u.path_segments ≠ none) :
    segments.foldl (fun u x => u.emplaceSegment x) u =
      { u with path_segments := some (u.path_segments.getD [] ++ segments) } := by
  induction segments generalizing u with
  | nil =>
      obtain ⟨l, hl⟩ := Option.ne_none_iff_exists'.1 h
      rw [List.foldl_nil, List.append_nil, hl, Option.getD_some, ← hl]
  | cons x segments ih =>
      obtain ⟨l, hl⟩ := Option.ne_none_iff_exists'.1 h
      rw [List.foldl_cons, ih _ (by simp [Uri.emplaceSegment, hl])]
      simp [Uri.emplaceSegment, hl]

/-- **The segments of a path** are taken one after the other. -/
theorem takes_segments (hne : segments ≠ []) (hsegments : ∀ x ∈ segments, x ∈ Uri.Text.segment)
    (hy : Stops pathChar y) (u : Uri Byte) (hu : u.path_segments ≠ none) :
    Takes (recordSegments octet) (path segments) y u
      { u with path_segments := some (u.path_segments.getD [] ++ segments) } := by
  have hslash : ∀ z, Stops segmentChar (bytes "/" ++ z) := fun z => .cons rfl (by decide) _
  have hmono : ∀ c, segmentChar c = true → pathChar c = true := urlChar_mono (by decide)
  have hstop : Stops segmentChar y := hy.mono hmono
  have htakes : ∀ x ∈ segments, ∀ z st, Stops segmentChar z →
      Takes (record (recognizer octet Uri.Grammar.segment) Uri.emplaceSegment) x z st
        (st.emplaceSegment x) :=
    fun x hx z st hz => Takes.record (reads_segment (hsegments x hx) hz)
  have hlit : ∀ z st, Takes (unrecorded octet (lit '/')) (bytes "/") z st st :=
    fun z st => Takes.lift (reads_lit rfl z)
  have hrefuse : ∀ st, Refuses (unrecorded octet (lit '/')) y st st := by
    intro st
    obtain ⟨c, z, rfl, hp, -⟩ := hy
    refine Refuses.lift (lit_reject (fun h47 => ?_) z)
    rw [octet_injective (a := c) (b := 47) h47] at hp
    cases hp
  have hturn : Silent (fun _ => ()) ((unrecorded octet (lit '/')).seq
      (record (recognizer octet Uri.Grammar.segment) Uri.emplaceSegment)) _ :=
    (Silent.lift _).seq (Silent.record fun _ _ => rfl)
  -- the first segment is read in front of the loop
  obtain ⟨x, more, rfl⟩ := List.exists_cons_of_ne_nil hne
  rw [← foldl_emplaceSegment u hu, List.foldl_cons, path, List.flatMap_cons, List.append_assoc]
  have hmore : Stops segmentChar (more.flatMap (fun x => bytes "/" ++ x) ++ y) := by
    cases more with
    | nil => exact hstop
    | cons x' more =>
        rw [List.flatMap_cons, List.append_assoc, List.append_assoc]
        exact hslash _
  refine Takes.seq (hlit _ _) (Takes.seq (htakes x List.mem_cons_self _ _ hmore) ?_)
  have hpiece : ∀ x ∈ more, bytes "/" ++ x ≠ [] ∧ ∀ z st, Stops segmentChar z →
      Takes ((unrecorded octet (lit '/')).seq
        (record (recognizer octet Uri.Grammar.segment) Uri.emplaceSegment)) (bytes "/" ++ x) z st
        (st.emplaceSegment x) := by
    intro x hx
    refine ⟨by simp [bytes], fun z st hz => ?_⟩
    exact Takes.seq (hlit _ _) (htakes x (List.mem_cons_of_mem _ hx) z st hz)
  have hstops : ∀ x ∈ more, ∀ z, Stops segmentChar (bytes "/" ++ x ++ z) := by
    intro x _ z
    rw [List.append_assoc]
    exact hslash _
  exact Takes.loop_flatten hturn.bounded hpiece hstops hstop fun st => (hrefuse st).seq_left

/-- **A path** is taken and assigned with its segments. -/
theorem takes_absPath (hne : segments ≠ []) (hsegments : ∀ x ∈ segments, x ∈ Uri.Text.segment)
    (hy : Stops pathChar y) (u : Uri Byte) :
    Takes (recordAbsPath octet) (path segments) y u (u.assignSegments segments) := by
  have htakes := takes_segments hne hsegments hy u.mutablePathSegments
    (by simp [Uri.mutablePathSegments])
  have hfinish : Takes ((recordSegments octet).finish (fun text u => .ok (u.assignPath text)) id)
      (path segments) y u.mutablePathSegments (u.assignSegments segments) := htakes.finish rfl
  exact hfinish

/-- A path that does not begin with two slashes does not do so where something else follows. -/
theorem path_append (hne : segments ≠ []) (hpath : ¬ bytes "//" <+: path segments)
    (hy : Stops pathChar y) : ∃ c z, path segments ++ y = 47 :: c :: z ∧ c ≠ 47 := by
  obtain ⟨x, more, rfl⟩ := List.exists_cons_of_ne_nil hne
  obtain ⟨t, ht⟩ : ∃ t, path (x :: more) = 47 :: t := ⟨_, rfl⟩
  rw [ht] at hpath ⊢
  cases t with
  | nil =>
      obtain ⟨c, z, rfl, hp, -⟩ := hy
      refine ⟨c, z, rfl, ?_⟩
      rintro rfl
      cases hp
  | cons c t =>
      refine ⟨c, t ++ y, rfl, ?_⟩
      rintro rfl
      exact hpath ⟨t, rfl⟩

/-- Where a second slash is missing, there is no net path. -/
theorem refuses_netPath {s : List Byte} {c : Byte} (hc : c ≠ 47) (u : Uri Byte) :
    Refuses (recordNetPath octet alt) (47 :: c :: s) u u := by
  have hsecond : Refuses (unrecorded octet (lit '/')) (c :: s) u u :=
    Refuses.lift (lit_reject (fun h47 => hc (octet_injective (b := 47) h47)) s)
  exact Takes.seq_refuses (x := bytes "/") (Takes.lift (reads_lit rfl _)) hsecond.seq_left

/-- Without a slash there is no hierarchical part; the attempt at a path creates the sequence of its
segments. -/
theorem refuses_hierPart {s : List Byte} {c : Byte} (hc : c ≠ 47) (u : Uri Byte) :
    Refuses (recordHierPart octet alt) (c :: s) u u.mutablePathSegments := by
  have hslash (u : Uri Byte) : Refuses (unrecorded octet (lit '/')) (c :: s) u u :=
    Refuses.lift (lit_reject (fun h47 => hc (octet_injective (b := 47) h47)) s)
  have hsegments : Refuses (recordSegments octet) (c :: s) u.mutablePathSegments
      u.mutablePathSegments := (hslash _).seq_left
  have hpath : Refuses (recordAbsPath octet) (c :: s) u u.mutablePathSegments := by
    rw [recordAbsPath, recordPath]
    exact hsegments.finish.after
  exact ((hslash u).seq_left.alt hpath).seq_left

end Path

/-! ### Queries and fragments -/

section Led

variable {y : List Byte}

/-- A part that a character leads in, if it is there. -/
theorem takes_led {lead : String} {x : Char} {c : Byte} {g : Grammar}
    {part : List Byte → Uri Byte → Uri Byte} (hlead : bytes lead = [c]) (hc : octet c = ch x)
    {text : Option (List Byte)} (hread : ∀ z ∈ text, (recognizer octet g).Reads z y)
    (hstop : recognizer octet (lit x) y = .reject) (u : Uri Byte) :
    Takes (optionally alt ((unrecorded octet (lit x)).seq (record (recognizer octet g) part)))
      (led lead text) y u (text.elim u fun z => part z u) := by
  cases text with
  | none => exact Takes.opt_nil (Refuses.lift hstop).seq_left
  | some z =>
      rw [Uri.Text.led, hlead]
      exact (Takes.seq (Takes.lift (reads_lit hc _)) (Takes.record (hread z rfl))).opt

theorem reads_urics {m : Name} (hm : m.settled = true) (htype : m.type = .repeat_ Uri.Grammar.uric)
    {x : List Byte} (hx : x ∈ urics) (hy : Stops (urlChar ";/?:@&=+$,") y) :
    (recognizer octet (.forwardRef m)).Reads x y := by
  rw [recognizer_forwardRef _ _ hm, htype, recognizer_repeat, recognizer_uric]
  exact reads_encoded rfl hx hy

theorem Stops.lit_reject {p : Byte → Bool} {x : Char} {c : Byte} (hc : octet c = ch x)
    (hp : p c = true) (hy : Stops p y) : recognizer octet (lit x) y = .reject := by
  obtain ⟨b, z, rfl, hb, -⟩ := hy
  refine Hittop.lit_reject (fun hx => ?_) z
  rw [octet_injective (hx.trans hc.symm), hp] at hb
  cases hb

variable {q f : Option (List Byte)}

/-- **A query** is taken and assigned, if it is there. -/
theorem takes_query (hq : ∀ x ∈ q, x ∈ urics) (hy : Stops (urlChar ";/?:@&=+$,") y) (u : Uri Byte) :
    Takes (recordQuery octet alt) (led "?" q) y u (q.elim u fun x => u.assignQuery x) :=
  takes_led rfl rfl (fun x hx => reads_urics rfl rfl (hq x hx) hy)
    (hy.lit_reject (c := 63) rfl (by decide)) u

/-- **A fragment** is taken and assigned, if it is there. -/
theorem takes_fragment (hf : ∀ x ∈ f, x ∈ urics) (hy : Stops referenceChar y) (u : Uri Byte) :
    Takes (recordFragment octet alt) (led "#" f) y u (f.elim u fun x => u.assignFragment x) := by
  have hmono : ∀ c, urlChar ";/?:@&=+$," c = true → referenceChar c = true :=
    urlChar_mono (by decide)
  exact takes_led rfl rfl (fun x hx => reads_urics rfl rfl (hf x hx) (hy.mono hmono))
    (hy.lit_reject (c := 35) rfl (by decide)) u

end Led

/-! ### Opaque parts -/

/-- **An absolute URI without a slash after its scheme** has no parts but the scheme. -/
theorem takes_absoluteURI_opaque {x z y : List Byte} (hx : x ∈ Uri.Text.scheme) {c : Byte}
    (hc : c ≠ 47) (huric : ∀ b ∈ c :: z, urlChar ";/?:@&=+$," b = true)
    (hy : Stops (urlChar ";/?:@&=+$,") y) (u : Uri Byte) :
    Takes (recordAbsoluteURI octet alt) (x ++ (bytes ":" ++ (c :: z))) y u
      (u.assignScheme x).mutablePathSegments := by
  have hfirst : (recognizer octet Uri.Grammar.uric_no_slash).Reads [c] (z ++ y) := by
    rw [Uri.Grammar.uric_no_slash, recognizer_unless, recognizer_uric]
    exact Recognizer.Reads.exclude (lit_reject (fun h47 => hc (octet_injective (b := 47) h47)) _)
      (Recognizer.Reads.satisfy (huric c List.mem_cons_self)).alt_left
  have hrest : (recognizer octet (.repeat_ Uri.Grammar.uric)).Reads z y := by
    rw [recognizer_repeat, recognizer_uric]
    exact reads_encoded rfl (mem_encoded fun b hb => huric b (List.mem_cons_of_mem _ hb)) hy
  have hopaque : (recognizer octet Uri.Grammar.opaque_part).Reads (c :: z) y := by
    rw [Uri.Grammar.opaque_part, recognizer_pair]
    exact Recognizer.Reads.seq (x := [c]) hfirst hrest
  have hscheme : Takes (record (recognizer octet Uri.Grammar.scheme) Uri.assignScheme) x
      ((bytes ":" ++ (c :: z)) ++ y) u (u.assignScheme x) :=
    Takes.record (reads_scheme hx (c := 58) (by decide))
  have hcolon : Takes (unrecorded octet (lit ':')) (bytes ":") ((c :: z) ++ y) (u.assignScheme x)
      (u.assignScheme x) := Takes.lift (reads_lit rfl _)
  exact hscheme.seq (hcolon.seq (Takes.alt_right (refuses_hierPart hc _) (Takes.lift hopaque)))

/-! ### Hierarchical parts -/

/-- A path, a query and a fragment, the last two if they are there. -/
def Uri.assignReference (segments : List (List Byte)) (q f : Option (List Byte)) (u : Uri Byte) :
    Uri Byte :=
  let v := u.assignSegments segments
  let w := q.elim v fun x => v.assignQuery x
  f.elim w fun x => w.assignFragment x

section

variable {segments : List (List Byte)} {q f : Option (List Byte)} {y : List Byte}

/-- What follows a query: a fragment, or what follows that. -/
theorem Stops.query (hy : Stops referenceChar y) (f : Option (List Byte)) :
    Stops (urlChar ";/?:@&=+$,") (Uri.Text.led "#" f ++ y) := by
  have hmono : ∀ c, urlChar ";/?:@&=+$," c = true → referenceChar c = true :=
    urlChar_mono (by decide)
  exact (hy.mono hmono).led (c := 35) rfl (by decide) (by decide) f

/-- What follows a path: a query, or what follows that. -/
theorem Stops.path (hy : Stops referenceChar y) (q f : Option (List Byte)) :
    Stops pathChar (Uri.Text.led "?" q ++ (Uri.Text.led "#" f ++ y)) := by
  have hmono : ∀ c, pathChar c = true → referenceChar c = true := urlChar_mono (by decide)
  have hfragment : Stops pathChar (Uri.Text.led "#" f ++ y) :=
    (hy.mono hmono).led (c := 35) rfl (by decide) (by decide) f
  exact hfragment.led (c := 63) rfl (by decide) (by decide) q

/-- **A path without an authority**, with what may follow it. -/
theorem takes_pathReference (hne : segments ≠ [])
    (hsegments : ∀ x ∈ segments, x ∈ Uri.Text.segment) (hpath : ¬ bytes "//" <+: path segments)
    (hq : ∀ x ∈ q, x ∈ urics) (hf : ∀ x ∈ f, x ∈ urics) (hy : Stops referenceChar y)
    (u : Uri Byte) :
    Takes ((recordHierPart octet alt).seq (recordFragment octet alt))
      (reference segments q f) y u (u.assignReference segments q f) := by
  have hstop := hy.path q f
  obtain ⟨c, z, happend, hc⟩ := path_append hne hpath hstop
  have hnet : Refuses (recordNetPath octet alt) (path segments ++ (led "?" q ++ (led "#" f ++ y)))
      u u := by
    rw [happend]
    exact refuses_netPath hc u
  have hchoice := Takes.alt_right hnet (takes_absPath hne hsegments hstop u)
  exact Takes.seq (Takes.seq hchoice (takes_query hq (hy.query f) _)) (takes_fragment hf hy _)

/-- The same as a `Request_URI`. -/
theorem takes_requestURI_path (hne : segments ≠ [])
    (hsegments : ∀ x ∈ segments, x ∈ Uri.Text.segment) (hpath : ¬ bytes "//" <+: path segments)
    (hq : ∀ x ∈ q, x ∈ urics) (hf : ∀ x ∈ f, x ∈ urics) (hy : Stops referenceChar y)
    (u : Uri Byte) :
    Takes (recordRequestURI octet alt) (reference segments q f) y u
      (u.assignReference segments q f) :=
  (takes_pathReference hne hsegments hpath hq hf hy u).alt_left

end

end Hittop
