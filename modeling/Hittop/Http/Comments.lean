/-
**Quoted strings and comments**, and what becomes of the delimiters inside.

A backslash is a character like others to `qdtext` and to `ctext`, which are tried before
`quoted_pair`: no quoted pair is ever read.  A quoted string ends at the first quotation mark, and a
comment where its parentheses are balanced, with or without backslashes before them.

Main definitions:

* `Hittop.Http.Printable`, `Hittop.Http.Ordinary` — the characters elements are made of;
* `Hittop.Http.QuotedElement`, `Hittop.Http.CommentElement` — what stands between the delimiters;
* `Hittop.Http.comment` — the recognizer of a comment.

Main results:

* `Hittop.Http.recognizer_quotedString` — a quoted string ends at the first quotation mark;
* `Hittop.Http.comment_ensures`, `Hittop.Http.reads_comment` — a comment is what is balanced;
* `Hittop.escaped_delimiters_iff` — which texts are read up to their ends.
-/

import Hittop.Http.Framing
import Hittop.Http.Taking
import Hittop.Json.Reading
import Hittop.Library.Brackets

set_option relaxedAutoImplicit false
set_option autoImplicit false

namespace Hittop

open Meaning
open Http.Grammar
open Uri.Grammar (lit)

variable {κ ν σ : Type}

namespace Http

/-! ### Texts -/

/-- A printable character. -/
abbrev Printable := {c : Byte // 32 ≤ c ∧ c ≤ 126}

/-- A printable character that is neither a delimiter nor a backslash. -/
abbrev Ordinary (delimiters : String) :=
  {c : Byte // (32 ≤ c ∧ c ≤ 126) ∧ c ∉ bytes delimiters ∧ c ≠ 92}

/-- What stands in a quoted string. -/
inductive QuotedElement
  | char (c : Ordinary "\"")
  | pair (c : Printable)

/-- What stands in a comment. -/
inductive CommentElement
  | char (c : Ordinary "()")
  | pair (c : Printable)
  | comment (elements : List CommentElement)

def QuotedElement.text : QuotedElement → List Byte
  | char c => [c.1]
  | pair c => [92, c.1]

/-- The elements between quotation marks. -/
def quotedText (elements : List QuotedElement) : List Byte :=
  34 :: elements.flatMap QuotedElement.text ++ [34]

def CommentElement.text : CommentElement → List Byte
  | char c => [c.1]
  | pair c => [92, c.1]
  | comment elements => 40 :: texts elements ++ [41]
where
  /-- Those of a list. -/
  texts : List CommentElement → List Byte
    | [] => []
    | e :: es => text e ++ texts es

/-- The elements between parentheses. -/
def commentText (elements : List CommentElement) : List Byte :=
  (CommentElement.comment elements).text

/-- The parentheses of the text are balanced, whatever stands before them. -/
abbrev Balanced (x : List Byte) : Prop := Brackets.Balanced 40 41 x

mutual

theorem CommentElement.printable : ∀ (e : CommentElement), ∀ c ∈ e.text, 32 ≤ c ∧ c ≤ 126
  | .char a, c, hc => List.mem_singleton.1 hc ▸ a.2.1
  | .pair a, c, hc => by
      rcases List.mem_pair.1 hc with rfl | rfl
      · decide
      · exact a.2
  | .comment es, c, hc => by
      rw [CommentElement.text, List.mem_append, List.mem_cons, List.mem_singleton] at hc
      rcases hc with (rfl | hc) | rfl
      · decide
      · exact CommentElement.texts_printable es c hc
      · decide

theorem CommentElement.texts_printable : ∀ (es : List CommentElement),
    ∀ c ∈ CommentElement.text.texts es, 32 ≤ c ∧ c ≤ 126
  | [], c, hc => by cases hc
  | e :: es, c, hc => by
      rcases List.mem_append.1 hc with hc | hc
      · exact e.printable c hc
      · exact CommentElement.texts_printable es c hc

end

/-! ### Quoted strings -/

/-- A quoted string reads to the first quotation mark: the pair is never tried, because the
alternative before it takes the backslash. -/
theorem recognizer_quotedString : recognizer octet quoted_string =
    .seq (recognizer octet (lit '"')) (.seq (.star (.satisfy fun c => !decide (octet c = ch '"')))
      (recognizer octet (lit '"'))) := by
  have hback (c : Byte) (hc : decide (octet c = ch '\\') = true) :
      (!decide (octet c = ch '"') && true) = true := by
    rw [of_decide_eq_true hc]
    decide
  have hpair : recognizer octet (.either [qdtext, quoted_pair]) =
      .satisfy fun c => !decide (octet c = ch '"') := by
    rw [recognizer_choice, qdtext, recognizer_unless, recognizer_lit, recognizer_anyChar,
      Recognizer.exclude_satisfy, quoted_pair, recognizer_pair, recognizer_lit,
      Recognizer.alt_satisfy_seq hback]
    simp only [Bool.and_true]
  rw [quoted_string, recognizer_concat, recognizer_pair, recognizer_repeat, hpair]

theorem quotedString_ensures : Recognizer.Ensures (recognizer octet quoted_string) fun x =>
    ∃ y, x = 34 :: y ++ [34] ∧ ∀ c ∈ y, c ≠ 34 := by
  have hinner : Recognizer.Ensures (.star (.satisfy fun c : Byte => !decide (octet c = ch '"')))
      fun y => ∀ c ∈ y, c ≠ 34 := by
    refine Recognizer.Ensures.star (Recognizer.additive_all _) (.satisfy fun a ha b hb => ?_)
    obtain rfl := List.mem_singleton.1 hb
    rintro rfl
    exact absurd ha (by decide)
  rw [recognizer_quotedString]
  refine (lit_ensures '"' 34 rfl).seq_of (hinner.seq_of (lit_ensures '"' 34 rfl)
    (R := fun x => ∃ y, x = y ++ [34] ∧ ∀ c ∈ y, c ≠ 34) ?_) ?_
  · rintro y _ hy rfl
    exact ⟨y, rfl, hy⟩
  · rintro _ _ rfl ⟨y, rfl, hy⟩
    exact ⟨y, rfl, hy⟩

theorem reads_quotedString {x : List Byte} (hx : ∀ c ∈ x, c ≠ 34) (rest : List Byte) :
    (recognizer octet quoted_string).Reads (34 :: x ++ [34]) rest := by
  have hstop : Recognizer.satisfy (fun c : Byte => !decide (octet c = ch '"')) ([34] ++ rest) =
      .reject := satisfy_reject (by decide)
  have hclass : ∀ c ∈ x, (!decide (octet c = ch '"')) = true := by
    intro c hc
    rw [Bool.not_eq_true', decide_eq_false_iff_not]
    exact fun h => hx c hc (octet_injective (b := 34) h)
  rw [recognizer_quotedString]
  exact Recognizer.Reads.seq (x := [34]) (reads_lit rfl _)
    ((Recognizer.Reads.star_satisfy hclass hstop).seq (reads_lit rfl rest))

/-- **A quoted string is read to its end** where no pair in it is a quotation mark. -/
theorem quotedString_accept_iff (elements : List QuotedElement) (rest : List Byte) :
    (recognizer octet quoted_string).Reads (quotedText elements) rest ↔
      ∀ c, .pair c ∈ elements → c.1 ≠ 34 := by
  have hmarks : (∀ c ∈ elements.flatMap QuotedElement.text, c ≠ 34) ↔
      ∀ c, .pair c ∈ elements → c.1 ≠ 34 := by
    constructor
    · exact fun h c hc => h c.1 (List.mem_flatMap.2 ⟨_, hc, by simp [QuotedElement.text]⟩)
    · intro h b hb
      obtain ⟨e, he, hb⟩ := List.mem_flatMap.1 hb
      cases e with
      | char a =>
          obtain rfl := List.mem_singleton.1 hb
          exact fun h34 => a.2.2.1 (by rw [h34]; decide)
      | pair a =>
          rcases List.mem_pair.1 hb with rfl | rfl
          · decide
          · exact h a he
  rw [← hmarks]
  constructor
  · intro h
    obtain ⟨y, hy, hfree⟩ := quotedString_ensures _ _ h
    rw [List.take_left, quotedText] at hy
    obtain rfl := List.append_cancel_right (List.cons_inj_right 34 |>.1 hy)
    exact hfree
  · exact fun h => reads_quotedString h rest

/-! ### Comments -/

section Comment

variable (toInt : κ → ℤ)

/-- What a comment has between its parentheses, where `f` are the comments inside. -/
def commentContent (f : Recognizer κ) : Recognizer κ :=
  .star ((recognizer toInt ctext).alt ((recognizer toInt quoted_pair).alt f))

/-- A comment, where `f` are the comments inside. -/
def commentOf (f : Recognizer κ) : Recognizer κ :=
  (recognizer toInt (lit '(')).seq ((commentContent toInt f).seq (recognizer toInt (lit ')')))

/-- The recognizer of a comment. -/
def comment : Recognizer κ := .fix (commentOf toInt)

/-- A comment, where `m` are the comments inside. -/
def parseCommentOf (m : Meaning κ σ) : Meaning κ σ :=
  (Meaning.char toInt '(').seq
    ((((lift (recognizer toInt ctext)).alt ((lift (recognizer toInt quoted_pair)).alt m)).loop).seq
      (Meaning.char toInt ')'))

theorem parseCommentOf_lift (f : Recognizer κ) :
    parseCommentOf toInt (lift f : Meaning κ σ) = lift (commentOf toInt f) := by
  simp only [parseCommentOf, Meaning.char, alt_lift, loop_lift, seq_lift]
  rfl

theorem guarded_parseCommentOf : Guarded (parseCommentOf toInt : Meaning κ σ → Meaning κ σ) := by
  intro n m m' h
  rw [parseCommentOf, parseCommentOf, Meaning.char, recognizer_lit]
  exact agree_satisfy_seq (agree_seq (agree_loop (agree_alt .refl (agree_alt .refl h))) .refl)

theorem guardedBy_commentOf : Recognizer.GuardedBy (commentOf toInt) := by
  intro n f g h s hs
  have hlift : AgreeTo n (lift f : Meaning κ Unit) (lift g) := fun s hs => congrArg pure (h s hs)
  have hstep := guarded_parseCommentOf toInt n _ _ hlift s hs
  rw [parseCommentOf_lift, parseCommentOf_lift] at hstep
  exact (Prod.mk.inj (Except.ok.inj (congrFun hstep ()))).1

/-- **The equation of a comment.** -/
theorem comment_eq : comment toInt = commentOf toInt (comment toInt) :=
  Recognizer.fix_eq (guardedBy_commentOf toInt)

end Comment

/-- **A parse of a comment without a visitor has the verdicts of its recognizer.** -/
theorem meaning_none_comment {toInt : κ → ℤ} (hlookup : InLookup toInt)
    {V : Visitors Name Cctype κ ν σ} :
    meaning (reading toInt) V none Http.Grammar.comment = lift (comment toInt) := by
  have hparser {g : Grammar} (hg : g.Each (Rule.RegularHead fun m => decide (m = .Star_))) :
      meaning (reading toInt) V none g = parserMeaning (reading toInt) V none g :=
    meaning_none_eq_parserMeaning hlookup (Json.regular_of hg)
  have hquiet {g : Grammar} (hg : g.Each (Rule.RegularHead fun m => decide (m = .Star_)))
      (h : (reading toInt).quiet (fun _ => true) Name.settled 32 g = true) :
      meaning (reading toInt) V none g = lift (recognizer toInt g) :=
    meaning_none_recognizer hlookup (Json.regular_of hg) h
  have hchar (x : Char) : meaning (reading toInt) V none (lit x) = Meaning.char toInt x :=
    hquiet (by simp [Rule.Each, Rule.RegularHead]) rfl
  have hinner : meaning (reading toInt) V none (.either [quoted_pair, Http.Grammar.comment]) =
      (lift (recognizer toInt quoted_pair)).alt
        (meaning (reading toInt) V none Http.Grammar.comment) := by
    rw [hparser (by decide), parserMeaning_either rfl, hquiet (g := quoted_pair) (by decide) rfl]
  have helement : meaning (reading toInt) V none
      (.either [ctext, quoted_pair, Http.Grammar.comment]) =
      (lift (recognizer toInt ctext)).alt ((lift (recognizer toInt quoted_pair)).alt
        (meaning (reading toInt) V none Http.Grammar.comment)) := by
    rw [hparser (by decide), parserMeaning_either rfl, hinner, hquiet (g := ctext) (by decide) rfl]
  have hrest : meaning (reading toInt) V none
      (.concat [.repeat_ (.either [ctext, quoted_pair, Http.Grammar.comment]), lit ')']) =
      (((lift (recognizer toInt ctext)).alt ((lift (recognizer toInt quoted_pair)).alt
        (meaning (reading toInt) V none Http.Grammar.comment))).loop).seq
          (Meaning.char toInt ')') := by
    rw [hparser (by decide), parserMeaning_concat rfl, hchar,
      hparser (g := .repeat_ _) (by decide), parserMeaning_loop rfl, helement]
  have hcomment : meaning (reading toInt) V none Http.Grammar.comment =
      parseCommentOf toInt (meaning (reading toInt) V none Http.Grammar.comment) := by
    rw [hparser (by decide)]
    conv_lhs => rw [parserMeaning_forwardRef (m := Name.comment_t) rfl]
    conv_rhs => rw [← hparser (g := Http.Grammar.comment) (by decide)]
    refine (parserMeaning_concat rfl).trans ?_
    rw [hrest, hchar]
    rfl
  refine (guarded_parseCommentOf toInt).unique hcomment ?_
  rw [parseCommentOf_lift, ← comment_eq]

/-! #### What a comment accepts -/

theorem recognizer_ctext : recognizer octet ctext =
    .exclude (.satisfy fun c => decide (c = 40) || decide (c = 41)) (recognizer octet TEXT) := by
  have hopen (c : Byte) : decide (octet c = ch '(') = decide (c = 40) :=
    decide_eq_decide.2 ⟨fun h => octet_injective (b := 40) h, fun h => h ▸ rfl⟩
  have hclose (c : Byte) : decide (octet c = ch ')') = decide (c = 41) :=
    decide_eq_decide.2 ⟨fun h => octet_injective (b := 41) h, fun h => h ▸ rfl⟩
  rw [ctext, recognizer_unless, recognizer_choice, recognizer_lit, recognizer_lit,
    Recognizer.alt_satisfy]
  simp only [hopen, hclose]

/-- White space has no parentheses. -/
theorem LWS_ensures :
    Recognizer.Ensures (recognizer octet LWS) fun x => ∀ c ∈ x, c ≠ 40 ∧ c ≠ 41 := by
  have hwithin : LWS.Each (Rule.Within (fun z => decide (z ≠ 40) && decide (z ≠ 41))
      (fun _ => false) fun m => decide (m = .LWS_) || decide (m = .CRLF_)) := by decide
  refine recognizer_ensures (Recognizer.additive_all _) (fun c hc b hb => ?_)
    (fun f hf => by cases hf) (fun m hm => ?_) hwithin
  · obtain rfl := List.mem_singleton.1 hb
    simp only [Bool.and_eq_true, decide_eq_true_eq] at hc
    exact ⟨fun h => hc.1 (by rw [h]; rfl), fun h => hc.2 (by rw [h]; rfl)⟩
  · simp only [Bool.or_eq_true, decide_eq_true_eq] at hm
    rcases hm with rfl | rfl <;> decide

/-- An ordinary character of a comment is no parenthesis. -/
theorem ctext_ensures : Recognizer.Ensures (recognizer octet ctext) Balanced := by
  intro s n h
  rw [recognizer_ctext, Recognizer.exclude_apply] at h
  split at h
  case h_1 => cases h
  case h_2 => cases h
  case h_3 hreject =>
    rw [recognizer_TEXT] at h
    rcases Recognizer.alt_eq_accept.1 h with h | ⟨-, h⟩
    · exact Brackets.balanced_of_forall (LWS_ensures s n h)
    · rw [recognizer_class (g := textChar) rfl] at h
      cases s with
      | nil => cases h
      | cons c s =>
          rw [Recognizer.satisfy_cons] at h
          split at h
          · cases h
            refine Brackets.balanced_of_forall fun b hb => ?_
            obtain rfl := List.mem_singleton.1 hb
            have hparen : ¬ (b = 40 ∨ b = 41) := by simpa using hreject
            exact not_or.1 hparen
          · cases h

/-- The pair is never tried: the alternative before it takes the backslash. -/
theorem ctext_alt_pair (f : Recognizer Byte) : (recognizer octet ctext).alt
    ((recognizer octet quoted_pair).alt f) = (recognizer octet ctext).alt f := by
  ext s
  by_cases hctext : recognizer octet ctext s = .reject
  · rw [Recognizer.alt_of_reject hctext, Recognizer.alt_of_reject hctext]
    refine Recognizer.alt_of_reject ?_
    rw [quoted_pair, recognizer_pair]
    cases s with
    | nil =>
        rw [recognizer_ctext] at hctext
        cases hctext
    | cons c s =>
        refine Recognizer.seq_of_reject (lit_reject (fun h => ?_) s)
        obtain rfl := octet_injective (b := 92) h
        have hread : (recognizer octet ctext).Reads [92] s := by
          rw [recognizer_ctext, recognizer_TEXT, recognizer_class (g := textChar) rfl]
          exact Recognizer.Reads.exclude rfl (Recognizer.Reads.alt_right
            (LWS_reject (by decide) (by decide) (by decide))
            (Recognizer.Reads.satisfy (by decide)))
        exact absurd (hread.symm.trans hctext) (by simp)
  · rw [Recognizer.alt_of_ne_reject hctext, Recognizer.alt_of_ne_reject hctext]

theorem commentContent_eq (f : Recognizer Byte) :
    commentContent octet f = .star ((recognizer octet ctext).alt f) := by
  rw [commentContent, ctext_alt_pair]

/-- **A comment that is accepted** has balanced parentheses. -/
theorem comment_ensures : Recognizer.Ensures (comment octet) fun x =>
    ∃ y, x = 40 :: y ++ [41] ∧ Balanced y := by
  refine Recognizer.Ensures.fix fun f hf => ?_
  have hcontent : Recognizer.Ensures (commentContent octet f) Balanced := by
    rw [commentContent_eq]
    refine Recognizer.Ensures.star ⟨Brackets.Balanced.nil, Brackets.Balanced.append⟩
      (ctext_ensures.alt (hf.mono ?_))
    rintro _ ⟨y, rfl, hy⟩
    exact hy.enclosed (by decide)
  refine (lit_ensures '(' 40 rfl).seq_of (hcontent.seq_of (lit_ensures ')' 41 rfl)
    (R := fun x => ∃ y, x = y ++ [41] ∧ Balanced y) ?_) ?_
  · rintro y _ hy rfl
    exact ⟨y, rfl, hy⟩
  · rintro _ _ rfl ⟨y, rfl, hy⟩
    exact ⟨y, rfl, hy⟩

/-! #### What a comment reads -/

section Reads

variable {x y : List Byte} {c : Byte}

theorem ctext_reject (h : c = 40 ∨ c = 41) : recognizer octet ctext (c :: y) = .reject := by
  rw [recognizer_ctext, Recognizer.exclude_apply, Recognizer.satisfy_cons,
    if_pos (by simpa using h)]

theorem comment_reject (h : c ≠ 40) : comment octet (c :: y) = .reject := by
  rw [comment_eq, commentOf]
  exact Recognizer.seq_of_reject (lit_reject (fun h40 => h (octet_injective (b := 40) h40)) y)

theorem reads_commentOf (h : (commentContent octet (comment octet)).Reads x (41 :: y)) :
    (comment octet).Reads (40 :: x ++ [41]) y := by
  rw [comment_eq]
  exact Recognizer.Reads.seq (x := [40]) (reads_lit rfl _)
    (Recognizer.Reads.seq (y := [41]) h (reads_lit rfl y))

/-- A printable character other than a space or a parenthesis is a part of a comment. -/
theorem reads_ctext (hc : 32 ≤ c ∧ c ≤ 126) (h32 : c ≠ 32) (h40 : c ≠ 40) (h41 : c ≠ 41) :
    (recognizer octet ctext).Reads [c] y := by
  have hparen : Recognizer.satisfy (fun c : Byte => decide (c = 40) || decide (c = 41)) (c :: y) =
      .reject := satisfy_reject (by simp [h40, h41])
  rw [recognizer_ctext, recognizer_TEXT, recognizer_class (g := textChar) rfl]
  exact Recognizer.Reads.exclude hparen (Recognizer.Reads.alt_right
    (LWS_reject h32 (printable_ne hc (by decide)) (printable_ne hc (by decide)))
    (Recognizer.Reads.satisfy (textChar_printable hc)))

/-- So is a run of spaces. -/
theorem reads_ctext_spaces (hx : ∀ a ∈ x, a = 32) (h32 : c ≠ 32) (h9 : c ≠ 9) :
    (recognizer octet ctext).Reads (bytes " " ++ x) (c :: y) := by
  rw [recognizer_ctext, recognizer_TEXT]
  exact Recognizer.Reads.exclude rfl (Recognizer.Reads.alt_left (reads_spaces hx h32 h9))

/-- **Printable characters with balanced parentheses** are the content of a comment. -/
theorem reads_commentContent (hx : ∀ c ∈ x, 32 ≤ c ∧ c ≤ 126) (hbalanced : Balanced x) :
    (commentContent octet (comment octet)).Reads x (41 :: y) := by
  -- on the length: a comment inside and what follows it are both shorter
  induction hn : x.length using Nat.strongRecOn generalizing x y with
  | ind n ih =>
      have hstep {a b : List Byte} (ha : a ≠ [])
          (hread : ((recognizer octet ctext).alt (comment octet)).Reads a (b ++ 41 :: y))
          (hrest : (commentContent octet (comment octet)).Reads b (41 :: y)) :
          (commentContent octet (comment octet)).Reads (a ++ b) (41 :: y) := by
        rw [commentContent_eq] at hrest ⊢
        exact Recognizer.Reads.star_cons ha hread hrest
      cases x with
      | nil =>
          rw [commentContent_eq]
          refine Recognizer.Reads.star_nil ?_
          rw [Recognizer.alt_of_reject (ctext_reject (.inr rfl))]
          exact comment_reject (by decide)
      | cons c x =>
          have htail : ∀ c ∈ x, 32 ≤ c ∧ c ≤ 126 := fun b hb => hx b (List.mem_cons_of_mem c hb)
          have hc := hx c List.mem_cons_self
          rw [List.length_cons] at hn
          by_cases h40 : c = 40
          · -- a comment inside
            subst h40
            rw [Balanced, Brackets.Balanced, Brackets.depth_opening] at hbalanced
            obtain ⟨a, b, rfl, ha, hb⟩ :=
              Brackets.exists_closing (by decide) hbalanced (Nat.le_refl 0)
            rw [List.length_append, List.length_cons] at hn
            have hinside : (comment octet).Reads (40 :: a ++ [41]) (b ++ 41 :: y) :=
              reads_commentOf (ih a.length (by omega)
                (fun c hc => htail c (List.mem_append_left _ hc)) ha rfl)
            have hafter : (commentContent octet (comment octet)).Reads b (41 :: y) :=
              ih b.length (by omega) (fun c hc => htail c (by simp [hc])) hb rfl
            have hsplit : 40 :: (a ++ 41 :: b) = (40 :: a ++ [41]) ++ b := by simp
            rw [hsplit]
            exact hstep (by simp) (Recognizer.Reads.alt_right (ctext_reject (.inl rfl)) hinside)
              hafter
          · by_cases h41 : c = 41
            · subst h41
              cases hbalanced
            · have hrest : Balanced x := by
                rwa [Balanced, Brackets.Balanced, Brackets.depth_other h40 h41] at hbalanced
              by_cases h32 : c = 32
              · -- a run of spaces is read in one turn of the loop
                subst h32
                obtain ⟨spaces, rest, rfl, hspaces, hhead⟩ := exists_leading_spaces x
                rw [List.length_append] at hn
                have hblank : Balanced spaces := Brackets.balanced_of_forall fun b hb => by
                  rw [hspaces b hb]
                  decide
                rw [Balanced, Brackets.Balanced, Brackets.depth_append, hblank] at hrest
                have hread : (recognizer octet ctext).Reads (bytes " " ++ spaces)
                    (rest ++ 41 :: y) := by
                  cases rest with
                  | nil => exact reads_ctext_spaces hspaces (by decide) (by decide)
                  | cons b rest =>
                      exact reads_ctext_spaces hspaces (hhead b rfl)
                        (printable_ne (htail b (by simp)) (by decide))
                exact hstep (a := bytes " " ++ spaces) (by simp [bytes]) hread.alt_left
                  (ih rest.length (by omega) (fun c hc => htail c (List.mem_append_right _ hc))
                    hrest rfl)
              · exact hstep (a := [c]) (by simp) (reads_ctext hc h32 h40 h41).alt_left
                  (ih x.length (by omega) htail hrest rfl)

end Reads

/-- **A comment is read to its end** where the parentheses inside are balanced. -/
theorem comment_reads_iff (elements : List CommentElement) (rest : List Byte) :
    (comment octet).Reads (commentText elements) rest ↔
      Balanced (CommentElement.text.texts elements) := by
  constructor
  · intro h
    obtain ⟨y, hy, hbalanced⟩ := comment_ensures _ _ h
    rw [List.take_left, commentText, CommentElement.text] at hy
    obtain rfl := List.append_cancel_right (List.cons_inj_right 40 |>.1 hy)
    exact hbalanced
  · intro h
    exact reads_commentOf (reads_commentContent (CommentElement.texts_printable elements) h)

/-! ### Parses -/

/-- A parse of a comment returns. -/
theorem exists_parses_comment {toInt : κ → ℤ} (hlookup : InLookup toInt) (s : List κ) :
    ∃ r, Parses (reading toInt) Http.Grammar.comment s r ∧ r.verdict = comment toInt s := by
  have hmeaning := meaning_none_comment (V := noVisitors Name Cctype κ) hlookup
  have hrun : meaning (reading toInt) (noVisitors Name Cctype κ) none Http.Grammar.comment s () =
      .ok (comment toInt s, ()) := congrFun (congrFun hmeaning s) ()
  obtain ⟨r, hr, hv⟩ := Exec.verdict_ok_iff.1 hrun
  exact ⟨r, parses_iff.2 hr, hv⟩

end Http

open Http in
/-- **Which delimited texts are read up to their ends**, whatever follows: a quoted string without
a quotation mark in a pair, and a comment whose parentheses are balanced when a backslash before
one of them is a character like others. -/
theorem escaped_delimiters_iff (quoted : List QuotedElement) (elements : List CommentElement)
    (rest : List Byte) :
    (Parses octets quoted_string (quotedText quoted ++ rest)
        (.success (quotedText quoted).length) ↔ ∀ c, .pair c ∈ quoted → c.1 ≠ 34) ∧
      (Parses octets Http.Grammar.comment (commentText elements ++ rest)
        (.success (commentText elements).length) ↔
          Balanced (CommentElement.text.texts elements)) := by
  have hquoted := exists_parses (g := quoted_string) (n := 32) octet_inLookup
    (quotedText quoted ++ rest) (Json.regular_of (by decide)) rfl
  have hcomment := exists_parses_comment octet_inLookup (commentText elements ++ rest)
  constructor
  · rw [← quotedString_accept_iff quoted rest]
    exact parses_success_iff hquoted
  · rw [← comment_reads_iff elements rest]
    exact parses_success_iff hcomment

/-- `"\""x` and `(\))x`: the string and the comment end at the escaped delimiter. -/
theorem escaped_delimiter_ends :
    ¬ Parses octets quoted_string (Http.quotedText [.pair ⟨34, by decide⟩] ++ bytes "x")
        (.success 4) ∧
      ¬ Parses octets Http.Grammar.comment (Http.commentText [.pair ⟨41, by decide⟩] ++ bytes "x")
        (.success 4) := by
  constructor
  · intro h
    have hthree : Parses octets quoted_string (bytes "\"\\\"\"x") (.success 3) := ⟨20, by decide⟩
    exact absurd (hthree.unique h) (by decide)
  · intro h
    have hthree : Parses octets Http.Grammar.comment (bytes "(\\))x") (.success 3) :=
      ⟨40, by decide⟩
    exact absurd (hthree.unique h) (by decide)

end Hittop
