/-
**Which texts `hostname` recognizes.**

The grammar writes a label as an `Inter`, so that a label may be empty and no two hyphens stand next
to each other.  The documented labels are not empty, and have any hyphens inside.

Main definitions:

* `Hittop.Uri.Text.hostname` — the documented language;
* `Hittop.Uri.Text.plainHostname` — its texts without two hyphens in a row before the last label;
* `Hittop.Uri.Text.emptyLabelled` — texts in which an empty label is read.

Main results:

* `Hittop.reads_hostname`, `Hittop.hostname_ensures` — what the rule accepts;
* `Hittop.hostname_language_iff` — when a documented text is recognized, and when an accepted one is
  documented.
-/

import Hittop.Library.Accepted
import Hittop.Uri.Reading
import Hittop.Uri.Texts
import Mathlib.Data.List.Chain

set_option relaxedAutoImplicit false
set_option autoImplicit false

namespace Hittop

open scoped Computability
open Uri.Grammar (lit)

/-! ### Languages -/

namespace Uri.Text

def isAlpha (c : Byte) : Bool := Cctype.test .isalpha (octet c)
def isAlphanum (c : Byte) : Bool := Cctype.test .isalnum (octet c)

/-- `alphanum | "-"` -/
def labelChar (c : Byte) : Bool := isAlphanum c || decide (c = 45)

/-- `domainlabel = alphanum | alphanum *( alphanum | "-" ) alphanum` -/
def domainlabel : Language Byte :=
  oneOf isAlphanum + oneOf isAlphanum * (oneOf labelChar)∗ * oneOf isAlphanum

/-- `toplabel = alpha | alpha *( alphanum | "-" ) alphanum` -/
def toplabel : Language Byte :=
  oneOf isAlpha + oneOf isAlpha * (oneOf labelChar)∗ * oneOf isAlphanum

/-- `hostname = *( domainlabel "." ) toplabel [ "." ]` -/
def hostname : Language Byte := (domainlabel * {bytes "."})∗ * (toplabel * (1 + {bytes "."}))

/-- A `domainlabel` without two hyphens in a row. -/
def plainLabel : Language Byte := {x | x ∈ domainlabel ∧ ¬ bytes "--" <:+: x}

/-- `*( plainLabel "." ) toplabel [ "." ]` -/
def plainHostname : Language Byte := (plainLabel * {bytes "."})∗ * (toplabel * (1 + {bytes "."}))

/-- `*( [ plainLabel ] "." ) toplabel [ "." ]`, where labels may be empty. -/
def looseHostname : Language Byte :=
  ((1 + plainLabel) * {bytes "."})∗ * (toplabel * (1 + {bytes "."}))

/-- `*( plainLabel "." ) "." *( [ plainLabel ] "." ) alpha` and anything behind it. -/
def emptyLabelled : Language Byte :=
  (plainLabel * {bytes "."})∗ *
    ({bytes "."} * (((1 + plainLabel) * {bytes "."})∗ * (oneOf isAlpha * ⊤)))

end Uri.Text

open Uri.Text

/-! ### Elements that stand apart -/

section Apart

variable {d : Byte} {x y : List Byte}

/-- No two `d` stand next to each other. -/
def Apart (d : Byte) (x : List Byte) : Prop := x.IsChain fun a b => ¬ (a = d ∧ b = d)

theorem apart_iff : Apart d x ↔ ¬ [d, d] <:+: x := by
  rw [Apart, List.isChain_iff_forall_rel_of_append_cons_cons]
  constructor
  · rintro h ⟨l₁, l₂, rfl⟩
    have hpair := @h d d l₁ l₂ (by simp)
    exact hpair ⟨rfl, rfl⟩
  · rintro h a b l₁ l₂ rfl ⟨rfl, rfl⟩
    exact h ⟨l₁, l₂, by simp⟩

theorem apart_of_notMem (h : d ∉ x) : Apart d x := by
  rw [apart_iff]
  rintro ⟨l₁, l₂, rfl⟩
  simp at h

theorem apart_cons (h : x.head? ≠ some d) (hx : Apart d x) : Apart d (d :: x) :=
  List.isChain_cons.2 ⟨fun b hb hboth => h (by rw [hb, hboth.2]), hx⟩

/-- A part without `d` in front of a `d`. -/
theorem Apart.join (hd : d ∉ x) (hy : Apart d (d :: y)) : Apart d (x ++ d :: y) := by
  refine List.isChain_append.2 ⟨apart_of_notMem hd, hy, fun a ha b _ hboth => hd ?_⟩
  rw [← hboth.1]
  exact List.mem_of_mem_getLast? ha

end Apart

/-! ### Labels -/

section Labels

variable {x y : List Byte}

theorem labelChar_of_alphanum {c : Byte} (h : isAlphanum c = true) : labelChar c = true := by
  rw [labelChar, h, Bool.true_or]

theorem alphanum_of_alpha {c : Byte} (h : isAlpha c = true) : isAlphanum c = true := by
  rw [isAlphanum, isalnum_test]
  exact Bool.or_eq_true_iff.2 (.inl h)

theorem notMem_of_alphanums {d : Byte} (hd : isAlphanum d = false)
    (hx : ∀ c ∈ x, isAlphanum c = true) : d ∉ x := by
  intro hmem
  rw [hx d hmem] at hd
  cases hd

/-- A label begins and ends with a letter or a digit. -/
theorem mem_domainlabel : x ∈ domainlabel ↔ (∀ c ∈ x, labelChar c = true) ∧
    (∃ a ∈ x.head?, isAlphanum a = true) ∧ ∃ b ∈ x.getLast?, isAlphanum b = true := by
  constructor
  · rintro (⟨a, ha, rfl⟩ | ⟨_, ⟨_, ⟨a, ha, rfl⟩, w, hw, rfl⟩, _, ⟨b, hb, rfl⟩, rfl⟩)
    · exact ⟨by simpa using labelChar_of_alphanum ha, ⟨a, rfl, ha⟩, ⟨a, rfl, ha⟩⟩
    · refine ⟨fun c hc => ?_, ⟨a, rfl, ha⟩, ⟨b, List.getLast?_concat (l := a :: w), hb⟩⟩
      rcases List.mem_append.1 hc with hc | hc
      · rcases List.mem_cons.1 hc with rfl | hc
        · exact labelChar_of_alphanum ha
        · exact mem_kstar_oneOf.1 hw c hc
      · rw [List.mem_singleton.1 hc]
        exact labelChar_of_alphanum hb
  · rintro ⟨hall, ⟨a, hhead, ha⟩, b, hlast, hb⟩
    obtain ⟨x, rfl⟩ : ∃ w, x = a :: w := by
      cases x with
      | nil => cases hhead
      | cons c x => exact ⟨x, by rw [Option.some.inj hhead]⟩
    rcases List.eq_nil_or_concat' x with rfl | ⟨w, b', rfl⟩
    · exact .inl ⟨a, ha, rfl⟩
    · obtain rfl : b' = b :=
        Option.some.inj ((List.getLast?_concat (l := a :: w)).symm.trans hlast)
      refine .inr ⟨a :: w, ⟨[a], ⟨a, ha, rfl⟩, w, mem_kstar_oneOf.2 fun c hc => ?_, rfl⟩, [b'],
        ⟨b', hb, rfl⟩, by simp⟩
      exact hall c (by simp [hc])

/-- At least one letter or digit. -/
def alphanums : Language Byte := {x | x ≠ [] ∧ ∀ c ∈ x, isAlphanum c = true}

theorem alphanums_plainLabel (hx : x ∈ alphanums) : x ∈ plainLabel := by
  obtain ⟨hne, hall⟩ := hx
  refine ⟨mem_domainlabel.2 ⟨fun c hc => labelChar_of_alphanum (hall c hc), ?_, ?_⟩, ?_⟩
  · exact ⟨x.head hne, List.head?_eq_some_head hne, hall _ (List.head_mem hne)⟩
  · exact ⟨x.getLast hne, List.getLast?_eq_some_getLast hne, hall _ (List.getLast_mem hne)⟩
  · exact apart_iff.1 (apart_of_notMem (notMem_of_alphanums rfl hall))

/-- Behind letters and digits, a hyphen and a label are a label. -/
theorem plainLabel_join (hx : x ∈ alphanums) (hy : y ∈ plainLabel) : x ++ 45 :: y ∈ plainLabel := by
  obtain ⟨hne, hall⟩ := hx
  obtain ⟨hy, happart⟩ := hy
  obtain ⟨hyall, ⟨a, hhead, ha⟩, b, hlast, hb⟩ := mem_domainlabel.1 hy
  have hhyphen : y.head? ≠ some 45 := by
    rw [hhead]
    rintro h45
    rw [Option.some.inj h45] at ha
    cases ha
  refine ⟨mem_domainlabel.2 ⟨fun c hc => ?_, ?_, ⟨b, ?_, hb⟩⟩, ?_⟩
  · rcases List.mem_append.1 hc with hc | hc
    · exact labelChar_of_alphanum (hall c hc)
    · rcases List.mem_cons.1 hc with rfl | hc
      · rfl
      · exact hyall c hc
  · refine ⟨x.head hne, ?_, hall _ (List.head_mem hne)⟩
    rw [List.head?_append_of_ne_nil _ hne]
    exact List.head?_eq_some_head hne
  · have hb' : y.getLast? = some b := hlast
    rw [Option.mem_def, List.getLast?_append, List.getLast?_cons, hb']
    rfl
  · exact apart_iff.1 (.join (notMem_of_alphanums rfl hall)
      (apart_cons hhyphen (apart_iff.2 happart)))

/-- Letters and digits, with single hyphens between. -/
def hyphenated : Language Byte := alphanums * ({bytes "-"} * alphanums)∗

theorem hyphenated_join (hx : x ∈ alphanums) (hy : y ∈ hyphenated) : x ++ 45 :: y ∈ hyphenated := by
  obtain ⟨u, hu, _, ⟨pieces, rfl, hpieces⟩, rfl⟩ := hy
  refine ⟨x, hx, 45 :: (u ++ pieces.flatten), ⟨(45 :: u) :: pieces, rfl, ?_⟩, rfl⟩
  exact List.forall_mem_cons.2 ⟨⟨[45], rfl, u, hu, rfl⟩, hpieces⟩

/-- A text of the characters of a label is hyphenated, at the latest behind a hyphen. -/
theorem hyphenated_of_apart (hall : ∀ c ∈ x, labelChar c = true) (happart : Apart 45 x)
    (hlast : ∃ b ∈ x.getLast?, isAlphanum b = true) :
    (∃ y, x = 45 :: y ∧ y ∈ hyphenated) ∨ x ∈ hyphenated := by
  have hchar (c : Byte) (h : labelChar c = true) : isAlphanum c = true ∨ c = 45 := by
    simpa [labelChar] using h
  induction x with
  | nil =>
      obtain ⟨b, hb, -⟩ := hlast
      cases hb
  | cons c x ih =>
      cases x with
      | nil =>
          obtain ⟨b, hb, halphanum⟩ := hlast
          obtain rfl : c = b := Option.some.inj hb
          exact .inr ⟨[c], ⟨by simp, by simpa using halphanum⟩, [], Language.nil_mem_kstar _, rfl⟩
      | cons d x =>
          obtain ⟨hapart', hrest⟩ := List.isChain_cons_cons.1 happart
          have hnext := ih (fun b hb => hall b (List.mem_cons_of_mem _ hb)) hrest
            (by rwa [List.getLast?_cons_cons] at hlast)
          -- a hyphen in front of the rest, or one more letter or digit of its first run
          rcases hnext with ⟨y, hy, hnext⟩ | hnext
          · obtain ⟨rfl, rfl⟩ := List.cons.inj hy
            have hc := (hchar c (hall c List.mem_cons_self)).resolve_right fun h => hapart' ⟨h, rfl⟩
            exact .inr (hyphenated_join (x := [c]) ⟨by simp, by simpa using hc⟩ hnext)
          · rcases hchar c (hall c List.mem_cons_self) with hc | rfl
            · obtain ⟨u, hu, z, hz, huz⟩ := hnext
              refine .inr ⟨c :: u, ⟨by simp, List.forall_mem_cons.2 ⟨hc, hu.2⟩⟩, z, hz, ?_⟩
              exact congrArg (List.cons c) huz
            · exact .inl ⟨_, rfl, hnext⟩

/-- **A label without two hyphens in a row** is letters and digits with single hyphens between. -/
theorem mem_plainLabel : x ∈ plainLabel ↔ x ∈ hyphenated := by
  constructor
  · rintro ⟨hlabel, happart⟩
    obtain ⟨hall, ⟨a, hhead, ha⟩, hlast⟩ := mem_domainlabel.1 hlabel
    refine (hyphenated_of_apart hall (apart_iff.2 happart) hlast).resolve_left ?_
    rintro ⟨y, rfl, -⟩
    obtain rfl : (45 : Byte) = a := Option.some.inj hhead
    cases ha
  · rintro ⟨u, hu, _, ⟨pieces, rfl, hpieces⟩, rfl⟩
    induction pieces generalizing u with
    | nil => simpa using alphanums_plainLabel hu
    | cons p pieces ih =>
        obtain ⟨_, rfl, v, hv, rfl⟩ := hpieces p List.mem_cons_self
        have hrest := ih v hv fun q hq => hpieces q (List.mem_cons_of_mem _ hq)
        exact plainLabel_join hu hrest

end Labels

/-! ### The rules of a host name -/

section Rules

variable {x w : List Byte} {e : Byte}

/-- `1*alphanum` -/
def someAlphanum : Recognizer Byte :=
  .seq (.satisfy isAlphanum) (.star (.satisfy isAlphanum))

theorem recognizer_domainlabel : recognizer octet Uri.Grammar.domainlabel =
    .opt (.seq someAlphanum (.star (.seq (recognizer octet (lit '-')) someAlphanum))) := by
  rw [Uri.Grammar.domainlabel, recognizer_inter, recognizer_atLeast_one, Uri.Grammar.alphanum,
    recognizer_charFilter]
  rfl

/-- `domainlabel "."` -/
def labelDot : Recognizer Byte :=
  .seq (recognizer octet Uri.Grammar.domainlabel) (recognizer octet (lit '.'))

/-- `toplabel [ "." ]` -/
def topDot : Recognizer Byte :=
  .seq (recognizer octet Uri.Grammar.toplabel) (.opt (recognizer octet (lit '.')))

theorem recognizer_hostname :
    recognizer octet Uri.Grammar.hostname = .starThen 16 labelDot topDot := by
  rw [Uri.Grammar.hostname, recognizer_repeatAndThen, recognizer_pair, recognizer_pair,
    recognizer_opt]
  rfl

theorem recognizer_toplabel : recognizer octet Uri.Grammar.toplabel =
    .alt (.seq (.satisfy isAlpha) (.starThen 16 (.satisfy labelChar) (.satisfy isAlphanum)))
      (.satisfy isAlpha) := by
  have hclass : recognizer octet (.either [Uri.Grammar.alphanum, lit '-']) =
      .satisfy labelChar := by
    refine recognizer_octets rfl fun c => ?_
    have hhyphen : has (lit '-') (octet c) = decide (c = 45) := by
      simp only [has, Rule.test, List.cons.injEq, and_true]
      exact decide_eq_decide.2
        ⟨fun h => octet_injective (b := 45) h.symm, fun h => (congrArg octet h).symm⟩
    rw [has_pair, hhyphen]
    rfl
  rw [Uri.Grammar.toplabel, recognizer_choice, recognizer_pair, recognizer_repeatAndThen, hclass]
  rfl

theorem dot_ensures : (recognizer octet (lit '.')).Ensures (· ∈ ({bytes "."} : Language Byte)) :=
  lit_ensures '.' 46 rfl

/-- A label is read, also an empty one, where a dot follows. -/
theorem reads_domainlabel (hx : x ∈ 1 + plainLabel) (z : List Byte) :
    (recognizer octet Uri.Grammar.domainlabel).Reads x (46 :: z) := by
  have hdot : Recognizer.satisfy isAlphanum (46 :: z) = .reject := satisfy_reject rfl
  rw [recognizer_domainlabel]
  rcases hx with rfl | hx
  · exact Recognizer.Reads.opt_nil
      (Recognizer.seq_of_reject (Recognizer.seq_of_reject hdot))
  · obtain ⟨u, hu, more, hmore, rfl⟩ := mem_plainLabel.1 hx
    have hpieces : ∀ p ∈ ({bytes "-"} * alphanums : Language Byte), p ≠ [] ∧
        ∀ z, Recognizer.satisfy isAlphanum z = .reject →
          (Recognizer.seq (recognizer octet (lit '-')) someAlphanum).Reads p z := by
      rintro _ ⟨_, rfl, v, hv, rfl⟩
      refine ⟨by simp [bytes], fun z hz => ?_⟩
      exact Recognizer.Reads.seq (x := bytes "-") (reads_lit rfl _)
        (Recognizer.Reads.some_satisfy hv.1 hv.2 hz)
    have hstops : ∀ p ∈ ({bytes "-"} * alphanums : Language Byte), ∀ z,
        Recognizer.satisfy isAlphanum (p ++ z) = .reject := by
      rintro _ ⟨_, rfl, v, -, rfl⟩ z
      exact satisfy_reject rfl
    have hstop : Recognizer.satisfy isAlphanum (more ++ 46 :: z) = .reject := by
      obtain ⟨pieces, rfl, hmore⟩ := hmore
      cases pieces with
      | nil => exact hdot
      | cons p pieces =>
          rw [List.flatten_cons, List.append_assoc]
          exact hstops p (hmore p List.mem_cons_self) _
    -- the letters and digits in front, then the loop over the hyphens
    refine (Recognizer.Reads.seq (Recognizer.Reads.some_satisfy hu.1 hu.2 hstop) ?_).opt
    exact Recognizer.Reads.star_kstar hpieces hstops hdot
      (Recognizer.seq_of_reject (lit_reject (by decide) z)) hmore

/-- A label in front of its dot. -/
theorem reads_labelDot (hx : x ∈ (1 + plainLabel) * {bytes "."}) (z : List Byte) :
    x ≠ [] ∧ labelDot.Reads x z := by
  obtain ⟨x, hx, _, rfl, rfl⟩ := hx
  refine ⟨by simp [bytes], ?_⟩
  exact Recognizer.Reads.seq (y := bytes ".") (reads_domainlabel hx z) (reads_lit rfl z)

/-- What a `domainlabel` accepts is empty, or has no two hyphens in a row. -/
theorem domainlabel_ensures :
    (recognizer octet Uri.Grammar.domainlabel).Ensures fun x => x ∈ 1 + plainLabel := by
  have hrun : someAlphanum.Ensures fun x => x ∈ alphanums := Recognizer.Ensures.some_satisfy
  have hhyphen : (recognizer octet (lit '-')).Ensures (· ∈ ({bytes "-"} : Language Byte)) :=
    lit_ensures '-' 45 rfl
  have hpiece := hhyphen.mul hrun
  have hmore := hpiece.star_of (Q := fun x => x ∈ ({bytes "-"} * alphanums : Language Byte)∗)
    (Language.nil_mem_kstar _) fun x y hx hy =>
      mul_kstar_le_kstar (a := ({bytes "-"} * alphanums : Language Byte)) ⟨x, hx, y, hy, rfl⟩
  rw [recognizer_domainlabel]
  refine (hrun.seq_of hmore fun x y hx hy => ?_).opt (.inl rfl)
  exact .inr (mem_plainLabel.2 ⟨x, hx, y, hy, rfl⟩)

theorem domainlabel_halts :
    (recognizer octet Uri.Grammar.domainlabel).Halts fun c => labelChar c = false := by
  have hchar : (Recognizer.satisfy isAlphanum).Halts fun c => labelChar c = false := by
    refine Recognizer.Halts.satisfy fun c hc hstop => ?_
    rw [labelChar_of_alphanum hc] at hstop
    cases hstop
  have hhyphen : (recognizer octet (lit '-')).Halts fun c => labelChar c = false := by
    rw [recognizer_lit]
    refine Recognizer.Halts.satisfy fun c hc hstop => ?_
    rw [octet_injective (b := 45) (of_decide_eq_true hc)] at hstop
    cases hstop
  have hrun : someAlphanum.Halts fun c => labelChar c = false := hchar.seq hchar.star
  rw [recognizer_domainlabel]
  exact (hrun.seq (hhyphen.seq hrun).star).opt

/-- Without a label and its dot in front, there is none. -/
theorem labelDot_reject (hw : ∀ c ∈ w, labelChar c = true) (he : labelChar e = false)
    (h : w ∈ 1 + plainLabel → e ≠ 46) (z : List Byte) : labelDot (w ++ e :: z) = .reject := by
  obtain ⟨hmore, -⟩ := domainlabel_halts (w ++ e :: z) ⟨e, by simp, he⟩
  cases hn : recognizer octet Uri.Grammar.domainlabel (w ++ e :: z) with
  | accept n =>
      have hlabel := domainlabel_ensures _ _ hn
      have hle : n ≤ w.length := by
        -- a label has no `e` in it
        by_contra hlt
        have hmem : e ∈ (w ++ e :: z).take n := by
          obtain ⟨k, hk⟩ : ∃ k, n = w.length + (k + 1) := ⟨n - w.length - 1, by omega⟩
          rw [hk, List.take_length_add_append, List.take_succ_cons]
          simp
        have hchar : labelChar e = true := by
          rcases hlabel with hnil | ⟨hlabel, -⟩
          · rw [hnil] at hmem
            cases hmem
          · exact (mem_domainlabel.1 hlabel).1 e hmem
        rw [he] at hchar
        cases hchar
      rw [labelDot, Recognizer.seq_of_accept hn, List.drop_append_of_le_length hle]
      rw [List.take_append_of_le_length hle] at hlabel
      cases hrest : w.drop n with
      | nil =>
          have hlength : w.length ≤ n := List.drop_eq_nil_iff.1 hrest
          rw [List.take_of_length_le hlength] at hlabel
          rw [List.nil_append, lit_reject fun h46 => h hlabel (octet_injective (b := 46) h46)]
          rfl
      | cons c rest =>
          have hc : labelChar c = true := hw c (List.mem_of_mem_drop (hrest ▸ List.mem_cons_self))
          rw [List.cons_append, lit_reject fun h46 => ?_]
          · rfl
          · rw [octet_injective (b := 46) h46] at hc
            cases hc
  | incomplete => exact absurd hn hmore
  | reject => exact Recognizer.seq_of_reject hn

/-- **The last label is read** where no further character of it follows. -/
theorem reads_toplabel (hx : x ∈ toplabel) (he : labelChar e = false) (z : List Byte) :
    (recognizer octet Uri.Grammar.toplabel).Reads x (e :: z) := by
  have hchar : Recognizer.satisfy labelChar (e :: z) = .reject := satisfy_reject he
  have halphanum : Recognizer.satisfy isAlphanum (e :: z) = .reject := by
    refine satisfy_reject (Bool.eq_false_iff.2 fun h => ?_)
    rw [labelChar_of_alphanum h] at he
    cases he
  rw [recognizer_toplabel]
  rcases hx with ⟨a, ha, rfl⟩ | ⟨_, ⟨_, ⟨a, ha, rfl⟩, w, hw, rfl⟩, _, ⟨b, hb, rfl⟩, rfl⟩
  · refine Recognizer.Reads.alt_right ?_ (Recognizer.Reads.satisfy ha)
    rw [(Recognizer.Reads.satisfy ha).seq_apply, Recognizer.starThen_of_reject hchar halphanum]
    rfl
  · refine Recognizer.Reads.alt_left (Recognizer.Reads.seq (x := [a]) (y := w ++ [b])
      (Recognizer.Reads.satisfy ha) ?_)
    exact Recognizer.Reads.starThen_satisfy (by decide) (mem_kstar_oneOf.1 hw)
      (labelChar_of_alphanum hb) hchar halphanum (Recognizer.Reads.satisfy hb)

theorem toplabel_ensures :
    (recognizer octet Uri.Grammar.toplabel).Ensures fun x => x ∈ toplabel := by
  have halpha : (Recognizer.satisfy isAlpha).Ensures fun x => x ∈ oneOf isAlpha :=
    Recognizer.Ensures.satisfy fun c hc => ⟨c, hc, rfl⟩
  have halphanum : (Recognizer.satisfy isAlphanum).Ensures fun x => x ∈ oneOf isAlphanum :=
    Recognizer.Ensures.satisfy fun c hc => ⟨c, hc, rfl⟩
  have hchar : (Recognizer.satisfy labelChar).Ensures fun x => x ∈ oneOf labelChar :=
    Recognizer.Ensures.satisfy fun c hc => ⟨c, hc, rfl⟩
  have hmore : (Recognizer.starThen 16 (.satisfy labelChar) (.satisfy isAlphanum)).Ensures
      fun x => x ∈ (oneOf labelChar)∗ * oneOf isAlphanum :=
    Recognizer.Ensures.starThen_of (Q := fun x => x ∈ (oneOf labelChar)∗)
      (fun x y hx hy => kstar_mul_le_kstar (a := oneOf labelChar) ⟨x, hx, y, hy, rfl⟩) hchar
      halphanum (Language.nil_mem_kstar _) (fun x y hx hy => ⟨x, hx, y, hy, rfl⟩) 16
  rw [recognizer_toplabel]
  refine Recognizer.Ensures.alt (halpha.seq_of hmore fun x y hx hy => .inr ?_)
    (halpha.mono fun x hx => .inl hx)
  obtain ⟨w, hw, b, hb, rfl⟩ := hy
  exact ⟨x ++ w, ⟨x, hx, w, hw, rfl⟩, b, hb, List.append_assoc x w b⟩

/-- The last label begins with a letter. -/
theorem topDot_reject (he : isAlpha e = false) (z : List Byte) : topDot (e :: z) = .reject := by
  have halpha : Recognizer.satisfy isAlpha (e :: z) = .reject := satisfy_reject he
  rw [topDot, recognizer_toplabel]
  refine Recognizer.seq_of_reject ?_
  rw [Recognizer.alt_of_reject (Recognizer.seq_of_reject halpha), halpha]

theorem topDot_ne_reject (he : isAlpha e = true) (z : List Byte) : topDot (e :: z) ≠ .reject := by
  have halpha : Recognizer.satisfy isAlpha (e :: z) = .accept 1 := by
    rw [Recognizer.satisfy_cons, if_pos he]
  intro h
  rw [topDot, Recognizer.seq_eq_reject_iff (Recognizer.lenient_opt _), recognizer_toplabel] at h
  by_cases hlong : Recognizer.seq (.satisfy isAlpha)
      (.starThen 16 (.satisfy labelChar) (.satisfy isAlphanum)) (e :: z) = .reject
  · rw [Recognizer.alt_of_reject hlong, halpha] at h
    cases h
  · rw [Recognizer.alt_of_ne_reject hlong] at h
    exact hlong h

theorem reads_topDot (hx : x ∈ toplabel * (1 + {bytes "."})) (he : labelChar e = false)
    (h46 : e ≠ 46) (z : List Byte) : topDot.Reads x (e :: z) := by
  obtain ⟨x, hx, _, rfl | rfl, rfl⟩ := hx
  · exact Recognizer.Reads.seq (y := []) (reads_toplabel hx he z)
      (.opt_nil (lit_reject (fun h => h46 (octet_injective (b := 46) h)) z))
  · exact Recognizer.Reads.seq (y := bytes ".") (reads_toplabel hx (e := 46) rfl (e :: z))
      (Recognizer.Reads.opt (reads_lit rfl _))

theorem topDot_ensures : topDot.Ensures fun x => x ∈ toplabel * (1 + {bytes "."}) := by
  have hdot : (recognizer octet (lit '.')).Ensures (· ∈ (1 + {bytes "."} : Language Byte)) :=
    dot_ensures.mono fun x hx => .inr hx
  exact toplabel_ensures.mul (hdot.opt (.inl rfl))

end Rules

/-! ### Host names -/

section Hostname

variable {x y s : List Byte} {e : Byte} {n : ℕ}

theorem toplabel_chars (hx : x ∈ toplabel) : (∀ c ∈ x, labelChar c = true) ∧
    ∃ a w, isAlpha a = true ∧ x = a :: w := by
  have hletter (c : Byte) (hc : isAlpha c = true) : labelChar c = true :=
    labelChar_of_alphanum (alphanum_of_alpha hc)
  rcases hx with ⟨a, ha, rfl⟩ | ⟨_, ⟨_, ⟨a, ha, rfl⟩, w, hw, rfl⟩, _, ⟨b, hb, rfl⟩, rfl⟩
  · exact ⟨by simpa using hletter a ha, a, [], ha, rfl⟩
  · refine ⟨fun c hc => ?_, a, w ++ [b], ha, rfl⟩
    rcases List.mem_cons.1 hc with rfl | hc
    · exact hletter c ha
    · rcases List.mem_append.1 hc with hc | hc
      · exact mem_kstar_oneOf.1 hw c hc
      · rw [List.mem_singleton.1 hc]
        exact labelChar_of_alphanum hb

/-- **What the rule reads.**  Where the last label could be one of the others, it is given back. -/
theorem reads_hostname (hx : x ∈ looseHostname) (he : labelChar e = false) (h46 : e ≠ 46)
    (z : List Byte) : (recognizer octet Uri.Grammar.hostname).Reads x (e :: z) := by
  obtain ⟨_, ⟨pieces, rfl, hpieces⟩, t, htop, rfl⟩ := hx
  have hread : ∀ p ∈ pieces, p ≠ [] ∧ ∀ z, True → labelDot.Reads p z :=
    fun p hp => ⟨(reads_labelDot (hpieces p hp) []).1, fun z _ =>
      (reads_labelDot (hpieces p hp) z).2⟩
  have hend : topDot.Reads t (e :: z) := reads_topDot htop he h46 z
  rw [recognizer_hostname]
  obtain ⟨top, hlabel, d, hd, rfl⟩ := htop
  have hchars := (toplabel_chars hlabel).1
  -- a last label with its dot is read as one of the others first, and given back
  by_cases hplain : top ∈ plainLabel ∧ d = bytes "."
  · obtain ⟨hplain, rfl⟩ := hplain
    obtain ⟨hne, hlast⟩ := reads_labelDot (x := top ++ bytes ".") ⟨top, .inr hplain, _, rfl, rfl⟩
      (e :: z)
    have halpha : isAlpha e = false := by
      refine Bool.eq_false_iff.2 fun h => ?_
      rw [labelChar_of_alphanum (alphanum_of_alpha h)] at he
      cases he
    exact Recognizer.Reads.starThen_last (by decide) hread (fun _ _ _ => trivial) hne trivial hlast
      (labelDot_reject (w := []) (by simp) he (fun _ => h46) z) (topDot_reject halpha z) hend
  · refine Recognizer.Reads.starThen (by decide) hread (fun _ _ _ => trivial) trivial ?_ hend
    rcases hd with rfl | rfl
    · change labelDot (top ++ [] ++ e :: z) = .reject
      rw [List.append_nil]
      exact labelDot_reject hchars he (fun _ => h46) z
    · change labelDot (top ++ [46] ++ e :: z) = .reject
      rw [List.append_assoc]
      refine labelDot_reject hchars (e := 46) rfl (fun hlabel' => ?_) (e :: z)
      rcases hlabel' with rfl | hlabel'
      · obtain ⟨a, w, -, hnil⟩ := (toplabel_chars hlabel).2
        cases hnil
      · exact absurd ⟨hlabel', rfl⟩ hplain

/-- **What the rule accepts.** -/
theorem hostname_ensures :
    (recognizer octet Uri.Grammar.hostname).Ensures fun x => x ∈ looseHostname := by
  have hlabel : labelDot.Ensures fun x => x ∈ (1 + plainLabel) * {bytes "."} :=
    domainlabel_ensures.mul dot_ensures
  rw [recognizer_hostname]
  exact Recognizer.Ensures.starThen_of (Q := fun x => x ∈ ((1 + plainLabel) * {bytes "."})∗)
    (fun x y hx hy => kstar_mul_le_kstar (a := (1 + plainLabel) * {bytes "."}) ⟨x, hx, y, hy, rfl⟩)
    hlabel topDot_ensures (Language.nil_mem_kstar _) (fun x y hx hy => ⟨x, hx, y, hy, rfl⟩) 16

/-- The labels are documented ones up to the first empty one. -/
theorem loose_cases (hx : x ∈ looseHostname) : x ∈ plainHostname ∨ x ∈ emptyLabelled := by
  obtain ⟨_, ⟨pieces, rfl, hpieces⟩, t, ht, rfl⟩ := hx
  induction pieces with
  | nil => exact .inl ⟨[], Language.nil_mem_kstar _, t, ht, rfl⟩
  | cons p pieces ih =>
      obtain ⟨label, hlabel, _, rfl, rfl⟩ := hpieces p List.mem_cons_self
      have hmore : ∀ q ∈ pieces, q ∈ (1 + plainLabel) * {bytes "."} :=
        fun q hq => hpieces q (List.mem_cons_of_mem _ hq)
      rcases hlabel with rfl | hlabel
      · obtain ⟨top, htop, d, -, rfl⟩ := ht
        obtain ⟨a, w, ha, rfl⟩ := (toplabel_chars htop).2
        refine .inr ⟨[], Language.nil_mem_kstar _, _, ⟨bytes ".", rfl, _, ⟨pieces.flatten,
          ⟨pieces, rfl, hmore⟩, _, ⟨[a], ⟨a, ha, rfl⟩, w ++ d, trivial, rfl⟩, rfl⟩, rfl⟩, rfl⟩
      · have hcons (u : List Byte) (hu : u ∈ (plainLabel * {bytes "."})∗) :
            label ++ bytes "." ++ u ∈ (plainLabel * {bytes "."})∗ :=
          mul_kstar_le_kstar (a := plainLabel * {bytes "."})
            ⟨_, ⟨label, hlabel, _, rfl, rfl⟩, u, hu, rfl⟩
        have happend (u v : List Byte) (huv : u ++ v = pieces.flatten ++ t) :
            label ++ bytes "." ++ u ++ v = label ++ bytes "." ++ pieces.flatten ++ t := by
          rw [List.append_assoc _ u, huv, ← List.append_assoc]
        rcases ih hmore with ⟨u, hu, v, hv, huv⟩ | ⟨u, hu, v, hv, huv⟩
        · exact .inl ⟨_, hcons u hu, v, hv, happend u v huv⟩
        · exact .inr ⟨_, hcons u hu, v, hv, happend u v huv⟩

/-- In a documented text no label is empty. -/
theorem hostname_apart (hx : x ∈ Uri.Text.hostname) : Apart 46 (46 :: x) := by
  have hdots (w : List Byte) (hw : ∀ c ∈ w, labelChar c = true) : (46 : Byte) ∉ w := by
    intro h46
    have hdot := hw 46 h46
    cases hdot
  have hfirst (a : Byte) (w : List Byte) (ha : labelChar a = true) : (a :: w).head? ≠ some 46 := by
    intro h46
    rw [Option.some.inj h46] at ha
    cases ha
  obtain ⟨_, ⟨pieces, rfl, hpieces⟩, _, ⟨top, htop, d, hd, rfl⟩, rfl⟩ := hx
  -- label by label: the dot in front of a label meets no other dot
  induction pieces with
  | nil =>
      obtain ⟨hchars, a, w, -, rfl⟩ := toplabel_chars htop
      have ha := hchars a List.mem_cons_self
      rcases hd with rfl | rfl
      · refine apart_cons (hfirst a _ ha) (apart_of_notMem ?_)
        simpa using hdots _ hchars
      · exact apart_cons (hfirst a _ ha)
          (.join (hdots _ hchars) (apart_cons (by simp) (apart_of_notMem (by simp))))
  | cons p pieces ih =>
      obtain ⟨label, hlabel, _, rfl, rfl⟩ := hpieces p List.mem_cons_self
      have hrest := ih fun q hq => hpieces q (List.mem_cons_of_mem _ hq)
      obtain ⟨hchars, ⟨a, hhead, ha⟩, -⟩ := mem_domainlabel.1 hlabel
      obtain ⟨w, rfl⟩ : ∃ w, label = a :: w := by
        cases label with
        | nil => cases hhead
        | cons c w => exact ⟨w, by rw [Option.some.inj hhead]⟩
      change Apart 46 (46 :: (a :: w ++ [46] ++ pieces.flatten ++ (top ++ d)))
      rw [List.append_assoc _ pieces.flatten, List.append_assoc (a :: w)]
      exact apart_cons (hfirst a _ (labelChar_of_alphanum ha)) (.join (hdots _ hchars) hrest)

/-- Behind complete labels a documented text has no dot. -/
theorem hostname_no_empty (hx : x ++ 46 :: y ∈ Uri.Text.hostname)
    (hlabels : x ∈ (plainLabel * {bytes "."})∗) : False := by
  have happart := apart_iff.1 (hostname_apart hx)
  obtain ⟨pieces, rfl, hpieces⟩ := hlabels
  rcases List.eq_nil_or_concat' pieces with rfl | ⟨before, p, rfl⟩
  · exact happart ⟨[], y, rfl⟩
  · obtain ⟨label, -, _, rfl, rfl⟩ := hpieces p (by simp)
    refine happart ⟨46 :: (before.flatten ++ label), y, ?_⟩
    simp [bytes]

/-- A documented text is read exactly if no label but the last has two hyphens in a row. -/
theorem reads_hostname_iff (hx : x ∈ Uri.Text.hostname) (he : labelChar e = false) (h46 : e ≠ 46)
    (z : List Byte) :
    (recognizer octet Uri.Grammar.hostname).Reads x (e :: z) ↔ x ∈ plainHostname := by
  constructor
  · intro hread
    have hloose := hostname_ensures _ _ hread
    rw [hread.take_eq] at hloose
    refine (loose_cases hloose).resolve_right ?_
    rintro ⟨u, hu, _, ⟨_, rfl, v, -, rfl⟩, rfl⟩
    exact hostname_no_empty hx hu
  · intro hplain
    have hle : (plainLabel * {bytes "."})∗ ≤ ((1 + plainLabel) * {bytes "."})∗ :=
      kstar_mono (mul_le_mul_left le_add_self _)
    obtain ⟨labels, hlabels, t, ht, rfl⟩ := hplain
    exact reads_hostname ⟨labels, hle hlabels, t, ht, rfl⟩ he h46 z

theorem plainHostname_documented (hx : x ∈ plainHostname) : x ∈ Uri.Text.hostname := by
  have hle : plainLabel ≤ domainlabel := fun _ h => h.1
  obtain ⟨labels, hlabels, t, ht, rfl⟩ := hx
  exact ⟨labels, kstar_mono (mul_le_mul_left hle _) hlabels, t, ht, rfl⟩

/-- An accepted text is documented exactly if no empty label is read. -/
theorem accepted_hostname_iff (hn : recognizer octet Uri.Grammar.hostname s = .accept n) :
    s.take n ∈ Uri.Text.hostname ↔ s ∉ emptyLabelled := by
  constructor
  · rintro hdocumented ⟨u, hu, _, ⟨_, rfl, _, ⟨_, ⟨pieces, rfl, hpieces⟩, _, ⟨_, ⟨a, ha, rfl⟩, z, -,
      rfl⟩, rfl⟩, rfl⟩, hs⟩
    have hs : u ++ (46 :: pieces.flatten ++ a :: z) = s := hs
    obtain ⟨before, hbefore, hlabels⟩ := id hu
    have hread : ∀ p ∈ before ++ [46] :: pieces, p ≠ [] ∧ ∀ z, True → labelDot.Reads p z := by
      intro p hp
      have hlabel : p ∈ (1 + plainLabel) * {bytes "."} := by
        rcases List.mem_append.1 hp with hp | hp
        · obtain ⟨label, hlabel, dot, hdot, rfl⟩ := hlabels p hp
          exact ⟨label, .inr hlabel, dot, hdot, rfl⟩
        · rcases List.mem_cons.1 hp with rfl | hp
          · exact ⟨[], .inl rfl, _, rfl, rfl⟩
          · exact hpieces p hp
      exact ⟨(reads_labelDot hlabel []).1, fun z _ => (reads_labelDot hlabel z).2⟩
    have hwhole : s = (before ++ [46] :: pieces).flatten ++ a :: z := by
      rw [← hs, List.flatten_append, ← hbefore, List.flatten_cons, List.append_assoc]
      rfl
    rw [recognizer_hostname, hwhole] at hn
    have hle := Recognizer.starThen_le (F := fun _ => True) (by decide) hread
      (fun _ _ _ => trivial) trivial (topDot_ne_reject ha z) hn
    -- the empty label is not given back
    have hlt : u.length < n := by
      rw [List.flatten_append, ← hbefore, List.length_append, List.flatten_cons,
        List.length_append, List.length_singleton] at hle
      omega
    obtain ⟨k, rfl⟩ : ∃ k, n = u.length + (k + 1) := ⟨n - u.length - 1, by omega⟩
    rw [← hs, List.take_length_add_append, List.cons_append, List.take_succ_cons] at hdocumented
    exact hostname_no_empty hdocumented hu
  · intro hempty
    rcases loose_cases (hostname_ensures _ _ hn) with hplain | ⟨u, hu, v, hv, huv⟩
    · exact plainHostname_documented hplain
    · obtain ⟨_, rfl, labels, ⟨w, hw, _, ⟨a, ha, t, -, rfl⟩, rfl⟩, rfl⟩ := hv
      refine absurd ⟨u, hu, _, ⟨_, rfl, _, ⟨w, hw, _, ⟨a, ha, t ++ s.drop n, trivial, rfl⟩,
        rfl⟩, rfl⟩, ?_⟩ hempty
      have hs := List.take_append_drop n s
      rw [← huv] at hs
      simpa using hs

/-- Parsing a host name is recognizing it. -/
theorem exists_parses_hostname (s : List Byte) (v : Verdict) :
    (∃ r, Parses octets Uri.Grammar.hostname s r ∧ r.verdict = v) ↔
      recognizer octet Uri.Grammar.hostname s = v := by
  obtain ⟨r, hr, hverdict⟩ := exists_parses octet_inLookup (n := 64) s (g := Uri.Grammar.hostname)
    (of_decide_eq_true rfl) rfl
  constructor
  · rintro ⟨r', hr', rfl⟩
    rw [hr'.unique hr, hverdict]
  · rintro rfl
    exact ⟨r, hr, hverdict⟩

/-- **A documented host name is recognized** exactly if no label but the last has two hyphens in a
row, and **what is recognized is documented** exactly if no empty label is read. -/
theorem hostname_language_iff (x rest s : List Byte) (c : Byte) (r : ParseResult) (n : ℕ) :
    (x ∈ Uri.Text.hostname → labelChar c = false → c ≠ 46 →
      ((∃ r, Parses octets Uri.Grammar.hostname (x ++ c :: rest) r ∧
        r.verdict = .accept x.length) ↔ x ∈ plainHostname)) ∧
    (Parses octets Uri.Grammar.hostname s r → r.verdict = .accept n →
      (s.take n ∈ Uri.Text.hostname ↔ s ∉ emptyLabelled)) := by
  constructor
  · intro hx hc h46
    rw [exists_parses_hostname]
    exact reads_hostname_iff hx hc h46 rest
  · intro hr hn
    exact accepted_hostname_iff ((exists_parses_hostname s _).1 ⟨r, hr, hn⟩)

/-- The host name `a-b.c`. -/
theorem hostname_language_iff_hyphen : (∃ r, Parses octets Uri.Grammar.hostname (bytes "a-b.c/") r ∧
    r.verdict = .accept 5) ∧ bytes "a-b.c/" ∉ emptyLabelled := by
  have hlabel : bytes "a-b" ∈ plainLabel :=
    plainLabel_join (x := bytes "a") (y := bytes "b") ⟨by decide, List.all_eq_true.1 rfl⟩
      (alphanums_plainLabel ⟨by decide, List.all_eq_true.1 rfl⟩)
  have htop : bytes "c" ∈ toplabel * (1 + {bytes "."}) :=
    ⟨bytes "c", .inl ⟨99, by decide, rfl⟩, [], .inl rfl, rfl⟩
  have hplain : bytes "a-b.c" ∈ plainHostname :=
    ⟨bytes "a-b.", ⟨[bytes "a-b."], rfl, by simpa using ⟨_, hlabel, bytes ".", rfl, rfl⟩⟩, _,
      htop, rfl⟩
  have hdocumented := plainHostname_documented hplain
  obtain ⟨r, hr, hn⟩ := (exists_parses_hostname (bytes "a-b.c/") (.accept 5)).2 (by decide)
  have hboth := hostname_language_iff (bytes "a-b.c") [] (bytes "a-b.c/") 47 r 5
  exact ⟨(hboth.1 hdocumented (by decide) (by decide)).2 hplain, (hboth.2 hr hn).1 hdocumented⟩

/-- Of `a--b.c`, a documented text, the last label is left; and `.a` is accepted, though it is not
documented. -/
theorem hostname_not_language :
    (bytes "a--b.c" ∈ Uri.Text.hostname ∧ ∃ r,
      Parses octets Uri.Grammar.hostname (bytes "a--b.c/") r ∧ r.verdict = .accept 5) ∧
    bytes ".a" ∉ Uri.Text.hostname ∧ ∃ r,
      Parses octets Uri.Grammar.hostname (bytes ".a/") r ∧ r.verdict = .accept 2 := by
  have hlabel : bytes "a--b" ∈ domainlabel :=
    .inr ⟨bytes "a--", ⟨bytes "a", ⟨97, by decide, rfl⟩, bytes "--",
      mem_kstar_oneOf.2 (List.all_eq_true.1 rfl), rfl⟩, bytes "b", ⟨98, by decide, rfl⟩, rfl⟩
  have htop : bytes "c" ∈ toplabel * (1 + {bytes "."}) :=
    ⟨bytes "c", .inl ⟨99, by decide, rfl⟩, [], .inl rfl, rfl⟩
  refine ⟨⟨⟨bytes "a--b.", ⟨[bytes "a--b."], rfl, ?_⟩, _, htop, rfl⟩, ?_⟩, fun h => ?_, ?_⟩
  · simpa using ⟨_, hlabel, bytes ".", rfl, rfl⟩
  · exact (exists_parses_hostname _ _).2 (by decide)
  · exact hostname_no_empty (x := []) (y := bytes "a") h (Language.nil_mem_kstar _)
  · exact (exists_parses_hostname _ _).2 (by decide)

end Hostname

end Hittop
