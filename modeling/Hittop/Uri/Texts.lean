/-
**The texts of the URI rules**, as the comments of the grammar write them down.

The languages are stated for themselves, with the operations on languages.  A rule reads a text of
its language where the text that follows cannot continue it.

Main definitions:

* `Hittop.Uri.Text.encoded`, `Hittop.Uri.Text.segment`, … — the languages of the rules;
* `Hittop.Uri.Text.path` — a path with these segments;
* `Hittop.Stops` — a text that begins with a character outside of a class.

Main results:

* `Hittop.recognizer_pchar`, … — the rules for single characters have one form;
* `Hittop.reads_encoded`, `Hittop.reads_segment` — the rules read the texts of their languages.
-/

import Hittop.Characters
import Hittop.Library.Reads
import Mathlib.Computability.Language

set_option relaxedAutoImplicit false
set_option autoImplicit false

namespace Hittop

open scoped Computability

/-! ### Languages -/

namespace Uri.Text

/-- One character of a class. -/
def oneOf (p : Byte → Bool) : Language Byte := {x | ∃ c, p c = true ∧ x = [c]}

/-- `"%" hex hex` -/
def escaped : Language Byte :=
  {bytes "%"} * oneOf (fun c => Cctype.test .isxdigit (octet c)) *
    oneOf (fun c => Cctype.test .isxdigit (octet c))

/-- `unreserved`, or one of the `others`. -/
def urlChar (others : String) (c : Byte) : Bool :=
  Cctype.test .isalnum (octet c) || decide (c ∈ bytes "-_.!~*'()") || decide (c ∈ bytes others)

/-- `*( unreserved | escaped | others )` -/
def encoded (others : String) : Language Byte := (oneOf (urlChar others) + escaped)∗

/-- `*pchar` -/
def pchars : Language Byte := encoded ":@&=+$,"

/-- `*pchar *( ";" *pchar )` -/
def segment : Language Byte := pchars * ({bytes ";"} * pchars)∗

/-- `*uric` -/
def urics : Language Byte := encoded ";/?:@&=+$,"

/-- A character of a scheme after its first. -/
def schemeChar (c : Byte) : Bool := Cctype.test .isalnum (octet c) || decide (c ∈ bytes "+-.")

/-- `alpha *( alpha | digit | "+" | "-" | "." )` -/
def scheme : Language Byte :=
  oneOf (fun c => Cctype.test .isalpha (octet c)) * (oneOf schemeChar)∗

/-- A path with these segments. -/
def path (segments : List (List Byte)) : List Byte :=
  segments.flatMap fun x => bytes "/" ++ x

end Uri.Text

open Uri.Text
open Uri.Grammar (lit)

/-! ### Bytes -/

/-- The text begins with a character that is neither in the class nor a percent sign. -/
def Stops (p : Byte → Bool) (y : List Byte) : Prop := ∃ c z, y = c :: z ∧ p c = false ∧ c ≠ 37

theorem Stops.cons {p : Byte → Bool} {c : Byte} (hp : p c = false) (hc : c ≠ 37) (z : List Byte) :
    Stops p (c :: z) := ⟨c, z, rfl, hp, hc⟩

theorem mem_kstar_oneOf {p : Byte → Bool} {x : List Byte} :
    x ∈ (oneOf p)∗ ↔ ∀ c ∈ x, p c = true := by
  constructor
  · rintro ⟨pieces, rfl, hpieces⟩ c hc
    obtain ⟨piece, hpiece, hmem⟩ := List.mem_flatten.1 hc
    obtain ⟨b, hb, rfl⟩ := hpieces piece hpiece
    rwa [List.mem_singleton.1 hmem]
  · intro hx
    refine ⟨x.map fun c => [c], ?_, ?_⟩
    · rw [← List.flatMap_def, List.flatMap_singleton']
    · intro piece hpiece
      obtain ⟨c, hc, rfl⟩ := List.mem_map.1 hpiece
      exact ⟨c, hx c hc, rfl⟩

/-- A text without escapes. -/
theorem mem_encoded {others : String} {x : List Byte} (hx : ∀ c ∈ x, urlChar others c = true) :
    x ∈ encoded others :=
  kstar_mono (a := oneOf (urlChar others)) le_self_add (mem_kstar_oneOf.2 hx)

/-! ### Single characters -/

theorem isalnum_test (z : ℤ) :
    Cctype.test .isalnum z = (Cctype.test .isalpha z || Cctype.test .isdigit z) := by
  simp only [Cctype.test]
  ac_rfl

theorem recognizer_escaped : recognizer octet Uri.Grammar.escaped =
    .seq (.satisfy fun c => decide (octet c = ch '%'))
      (.seq (.satisfy fun c => Cctype.test .isxdigit (octet c))
        (.satisfy fun c => Cctype.test .isxdigit (octet c))) := by
  rw [Uri.Grammar.escaped, recognizer_concat, recognizer_pair, recognizer_lit, Uri.Grammar.hex,
    recognizer_charFilter]

/-- A character of a class, or an escape. -/
def pieceOf (others : String) : Recognizer Byte :=
  .alt (.satisfy (urlChar others)) (recognizer octet Uri.Grammar.escaped)

/-- A rule that is a class of characters, as a predicate on octets. -/
theorem recognizer_octets {g : Grammar} {p : Byte → Bool} (h : g.isClass = true)
    (hall : ∀ c, has g (octet c) = p c) : recognizer octet g = .satisfy p := by
  rw [recognizer_class h]
  exact congrArg Recognizer.satisfy (funext hall)

/-- A choice of single characters contains the octets of their text. -/
theorem has_literals (text : String) {gs : List Grammar} (h : gs = text.toList.map lit)
    (hall : text.toList.all (fun x => decide (x.toNat < 256)) = true) (c : Byte) :
    has (.either gs) (octet c) = decide (c ∈ bytes text) := by
  rw [h, has_lits hall, bytes]

theorem has_unreserved (c : Byte) : has Uri.Grammar.unreserved (octet c) =
    (Cctype.test .isalnum (octet c) || decide (c ∈ bytes "-_.!~*'()")) := by
  have hmark : has Uri.Grammar.mark (octet c) = decide (c ∈ bytes "-_.!~*'()") :=
    has_literals "-_.!~*'()" rfl rfl c
  rw [Uri.Grammar.unreserved, has_pair, hmark]
  rfl

theorem recognizer_uric : recognizer octet Uri.Grammar.uric = pieceOf ";/?:@&=+$," := by
  have hclass : recognizer octet (.either [Uri.Grammar.reserved, Uri.Grammar.unreserved]) =
      .satisfy (urlChar ";/?:@&=+$,") := by
    refine recognizer_octets rfl fun c => ?_
    have hreserved : has Uri.Grammar.reserved (octet c) = decide (c ∈ bytes ";/?:@&=+$,") :=
      has_literals ";/?:@&=+$," rfl rfl c
    rw [has_pair, has_unreserved, hreserved, Bool.or_comm, urlChar]
  rw [Uri.Grammar.uric, recognizer_either, recognizer_choice, ← Recognizer.alt_assoc,
    ← recognizer_choice, hclass, pieceOf]

/-- An escape and a class without the percent sign may change places. -/
theorem recognizer_escaped_comm {g : Grammar} (h : g.isClass = true) (h37 : has g 37 = false) :
    Recognizer.alt (recognizer octet Uri.Grammar.escaped) (recognizer octet g) =
      Recognizer.alt (recognizer octet g) (recognizer octet Uri.Grammar.escaped) := by
  refine Recognizer.ext fun s => ?_
  rw [recognizer_class h]
  cases s with
  | nil => rw [recognizer_escaped]; rfl
  | cons c s =>
      by_cases hc : octet c = 37
      · have hreject : Recognizer.satisfy (fun c => has g (octet c)) (c :: s) = .reject := by
          rw [Recognizer.satisfy_cons, hc, h37]
          rfl
        rw [Recognizer.alt_of_reject hreject, Recognizer.alt_of_reject_right hreject]
      · have hreject : recognizer octet Uri.Grammar.escaped (c :: s) = .reject := by
          rw [recognizer_escaped]
          refine Recognizer.seq_of_reject ?_
          exact satisfy_reject (decide_eq_false hc)
        rw [Recognizer.alt_of_reject hreject, Recognizer.alt_of_reject_right hreject]

/-- A rule that allows some characters besides `unreserved` and `escaped`. -/
theorem recognizer_unreserved {a b : Grammar} {rest : List Grammar} (others : String)
    (hlits : a :: b :: rest = others.toList.map lit)
    (hall : others.toList.all (fun x => decide (x.toNat < 256)) = true) (h37 : 37 ∉ bytes others) :
    recognizer octet (.either (Uri.Grammar.unreserved :: Uri.Grammar.escaped :: a :: b :: rest)) =
      pieceOf others := by
  have hothers : (Rule.either (a :: b :: rest) : Grammar).isClass = true := by
    rw [hlits]
    refine isClass_lits fun hnil => ?_
    rw [hnil] at hlits
    cases hlits
  have hpercent : has (.either (a :: b :: rest)) 37 = false := by
    rw [show (37 : ℤ) = octet 37 from rfl, has_literals others hlits hall]
    exact decide_eq_false h37
  have hclass : (Rule.either [Uri.Grammar.unreserved, .either (a :: b :: rest)] : Grammar).isClass =
      true := by
    simp only [Rule.isClass, Rule.isClass.allClasses, List.isEmpty_cons, Bool.not_false,
      Bool.true_and, Bool.and_true, Bool.and_eq_true] at hothers ⊢
    exact ⟨rfl, hothers⟩
  have hchars : ∀ c, has (.either [Uri.Grammar.unreserved, .either (a :: b :: rest)]) (octet c) =
      urlChar others c := by
    intro c
    rw [has_pair, has_unreserved, has_literals others hlits hall, urlChar]
  rw [recognizer_either, recognizer_either, recognizer_escaped_comm hothers hpercent,
    ← Recognizer.alt_assoc, ← recognizer_choice, recognizer_octets hclass hchars, pieceOf]

theorem recognizer_pchar : recognizer octet Uri.Grammar.pchar = pieceOf ":@&=+$," :=
  recognizer_unreserved ":@&=+$," rfl rfl (by decide)

theorem urlChar_mono {others more : String}
    (h : (bytes others).all (fun c => decide (c ∈ bytes more)) = true) (c : Byte)
    (hc : urlChar others c = true) : urlChar more c = true := by
  simp only [urlChar, Bool.or_eq_true, decide_eq_true_eq] at hc ⊢
  rcases hc with hc | hc
  · exact .inl hc
  · exact .inr (of_decide_eq_true (List.all_eq_true.1 h c hc))

/-! ### Texts -/

theorem pieceOf_reject {others : String} {y : List Byte} (h : Stops (urlChar others) y) :
    pieceOf others y = .reject := by
  obtain ⟨c, z, rfl, hp, hc⟩ := h
  have hescaped : recognizer octet Uri.Grammar.escaped (c :: z) = .reject := by
    rw [recognizer_escaped]
    refine Recognizer.seq_of_reject (satisfy_reject (decide_eq_false fun h37 => hc ?_))
    exact octet_injective h37
  rw [pieceOf, Recognizer.alt_of_reject (satisfy_reject hp), hescaped]

theorem reads_escaped {x : List Byte} (hx : x ∈ Uri.Text.escaped) (y : List Byte) :
    (recognizer octet Uri.Grammar.escaped).Reads x y := by
  obtain ⟨_, ⟨_, rfl, _, ⟨a, ha, rfl⟩, rfl⟩, _, ⟨b, hb, rfl⟩, rfl⟩ := hx
  rw [recognizer_escaped]
  have hdigits := Recognizer.Reads.seq (y := [b]) (z := y)
    (Recognizer.Reads.satisfy (p := fun c => Cctype.test .isxdigit (octet c)) ha)
    (Recognizer.Reads.satisfy (p := fun c => Cctype.test .isxdigit (octet c)) hb)
  exact Recognizer.Reads.seq (x := [37]) (Recognizer.Reads.satisfy (decide_eq_true rfl)) hdigits

theorem reads_piece {others : String} (h37 : urlChar others 37 = false) {x : List Byte}
    (hx : x ∈ oneOf (urlChar others) + Uri.Text.escaped) :
    x ≠ [] ∧ ∀ y, (pieceOf others).Reads x y := by
  rcases hx with ⟨c, hc, rfl⟩ | hx
  · exact ⟨by simp, fun y => (Recognizer.Reads.satisfy hc).alt_left⟩
  · obtain ⟨x, rfl⟩ : ∃ z, x = 37 :: z := by
      obtain ⟨_, ⟨_, rfl, _, -, rfl⟩, _, -, rfl⟩ := hx
      exact ⟨_, rfl⟩
    exact ⟨by simp, fun y => Recognizer.Reads.alt_right (satisfy_reject h37) (reads_escaped hx y)⟩

/-- A repetition of such a rule reads the texts of its language. -/
theorem reads_encoded {others : String} (h37 : urlChar others 37 = false) {x y : List Byte}
    (hx : x ∈ encoded others) (hy : Stops (urlChar others) y) :
    (Recognizer.star (pieceOf others)).Reads x y :=
  Recognizer.Reads.star_kstar (F := fun _ => True)
    (fun _ hpiece => ⟨(reads_piece h37 hpiece).1, fun z _ => (reads_piece h37 hpiece).2 z⟩)
    (fun _ _ _ => trivial) trivial (pieceOf_reject hy) hx

/-- A character that can stand in a segment. -/
abbrev segmentChar : Byte → Bool := urlChar ";:@&=+$,"

theorem Stops.mono {p q : Byte → Bool} (h : ∀ c, q c = true → p c = true) {y : List Byte}
    (hy : Stops p y) : Stops q y := by
  obtain ⟨c, z, rfl, hp, hc⟩ := hy
  refine ⟨c, z, rfl, ?_, hc⟩
  by_contra hq
  rw [h c (by simpa using hq)] at hp
  cases hp

theorem recognizer_segment : recognizer octet Uri.Grammar.segment =
    .seq (.star (pieceOf ":@&=+$,")) (.star (.seq (recognizer octet (lit ';'))
      (.star (pieceOf ":@&=+$,")))) := by
  rw [Uri.Grammar.segment, recognizer_pair, recognizer_repeat, recognizer_repeat, recognizer_pair,
    Uri.Grammar.param, recognizer_forwardRef _ _ rfl]
  change Recognizer.seq _ (.star (.seq _ (recognizer octet (.repeat_ _)))) = _
  rw [recognizer_repeat, recognizer_pchar]

/-- **A scheme is read** where no further character of it follows. -/
theorem reads_scheme {x y : List Byte} (hx : x ∈ Uri.Text.scheme) {c : Byte}
    (hc : schemeChar c = false) : (recognizer octet Uri.Grammar.scheme).Reads x (c :: y) := by
  obtain ⟨_, ⟨b, hb, rfl⟩, x, hrest, rfl⟩ := hx
  have hclass : recognizer octet (.either [Uri.Grammar.alpha, Uri.Grammar.digit, lit '+', lit '-',
      lit '.']) = .satisfy schemeChar := by
    refine recognizer_octets rfl fun c => ?_
    have hlits : has (.either [lit '+', lit '-', lit '.']) (octet c) = decide (c ∈ bytes "+-.") :=
      has_literals "+-." rfl rfl c
    change (Cctype.test .isalpha (octet c) || (Cctype.test .isdigit (octet c) ||
      has (.either [lit '+', lit '-', lit '.']) (octet c))) = _
    rw [hlits, schemeChar, isalnum_test, Bool.or_assoc]
  rw [Uri.Grammar.scheme, recognizer_forwardRef _ _ rfl]
  change (recognizer octet (.concat _)).Reads _ _
  rw [recognizer_pair, recognizer_repeat, hclass, Uri.Grammar.alpha, recognizer_charFilter]
  exact Recognizer.Reads.seq (x := [b]) (Recognizer.Reads.satisfy hb)
    (Recognizer.Reads.star_satisfy (mem_kstar_oneOf.1 hrest) (satisfy_reject hc))

/-- **A segment is read** where no further character of it follows. -/
theorem reads_segment {x y : List Byte} (hx : x ∈ Uri.Text.segment) (hy : Stops segmentChar y) :
    (recognizer octet Uri.Grammar.segment).Reads x y := by
  have hpchar : ∀ c, urlChar ":@&=+$," c = true → segmentChar c = true := urlChar_mono (by decide)
  have hstop : recognizer octet (lit ';') y = .reject := by
    obtain ⟨c, z, rfl, hp, -⟩ := hy
    refine lit_reject (fun h59 => ?_) z
    rw [octet_injective (a := c) (b := 59) h59] at hp
    cases hp
  obtain ⟨x, hfirst, _, hparams, rfl⟩ := hx
  have hpieces : ∀ x ∈ ({bytes ";"} * pchars : Language Byte), x ≠ [] ∧
      ∀ z, Stops (urlChar ":@&=+$,") z →
        (Recognizer.seq (recognizer octet (lit ';')) (.star (pieceOf ":@&=+$,"))).Reads x z := by
    rintro _ ⟨_, rfl, x, hx, rfl⟩
    refine ⟨by simp [bytes], fun z hz => ?_⟩
    exact Recognizer.Reads.seq (x := bytes ";") (reads_lit rfl _) (reads_encoded rfl hx hz)
  have hstops : ∀ x ∈ ({bytes ";"} * pchars : Language Byte), ∀ z,
      Stops (urlChar ":@&=+$,") (x ++ z) := by
    rintro _ ⟨_, rfl, x, -, rfl⟩ z
    exact .cons rfl (by decide) _
  rw [recognizer_segment]
  refine Recognizer.Reads.seq (reads_encoded rfl hfirst ?_) (Recognizer.Reads.star_kstar hpieces
    hstops (hy.mono hpchar) (Recognizer.seq_of_reject hstop) hparams)
  obtain ⟨pieces, rfl, hpieces⟩ := hparams
  cases pieces with
  | nil => exact hy.mono hpchar
  | cons x pieces =>
      rw [List.flatten_cons, List.append_assoc]
      exact hstops x (hpieces x List.mem_cons_self) _

end Hittop
