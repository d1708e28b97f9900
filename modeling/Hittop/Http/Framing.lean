/-
**Where the head of a request ends.**

The head of a request is accepted up to the first empty line and no further.  Every line of it ends
in a carriage return and a line feed; inside a line these two are found in a fold only, where white
space comes after them; and a line that begins a header begins with a character of a token.

Main definitions:

* `Hittop.Folded` — a text in which carriage returns begin folds;
* `Hittop.HeaderLines` — headers, each with the end of its line.

Main results:

* `Hittop.folded_messageHeader`, `Hittop.headerLines_ensures` — what the rules accept;
* `Hittop.firstEnd_head` — where the first empty line is;
* `Hittop.request_framing` — a request is accepted up to the end of the first empty line.
-/

import Hittop.Http.Reading

set_option relaxedAutoImplicit false
set_option autoImplicit false

namespace Hittop

open Uri.Grammar (lit)
open Http.Grammar Recognizer

/-! ### Folds -/

/-- A carriage return is followed by a line feed and by white space. -/
inductive Folded : List Byte → Prop
  | nil : Folded []
  | char {c : Byte} {x : List Byte} (h : c ≠ 13) : Folded x → Folded (c :: x)
  | fold {c : Byte} {x : List Byte} (h : c = 32 ∨ c = 9) : Folded x → Folded (13 :: 10 :: c :: x)

theorem Folded.append {x y : List Byte} (hx : Folded x) (hy : Folded y) : Folded (x ++ y) := by
  induction hx with
  | nil => exact hy
  | char h _ ih => exact .char h ih
  | fold h _ ih => exact .fold h ih

theorem additive_folded : Additive Folded := ⟨.nil, .append⟩

/-- Headers, each with the end of its line. -/
inductive HeaderLines : List Byte → Prop
  | nil : HeaderLines []
  | cons {c : Byte} {x y : List Byte} (hc : c ≠ 13) (hx : Folded (c :: x)) :
      HeaderLines y → HeaderLines (c :: x ++ 13 :: 10 :: y)

/-- The end of a line, and an empty line. -/
def emptyLine : List Byte := [13, 10, 13, 10]

theorem not_emptyLine_of_fst {c : Byte} {x : List Byte} (h : c ≠ 13) : ¬ emptyLine <+: c :: x := by
  intro hprefix
  exact h (List.cons_prefix_cons.1 hprefix).1.symm

theorem not_emptyLine_of_thd {a b c : Byte} {x : List Byte} (h : c ≠ 13) :
    ¬ emptyLine <+: a :: b :: c :: x := by
  intro hprefix
  have htail := (List.cons_prefix_cons.1 (List.cons_prefix_cons.1 hprefix).2).2
  exact h (List.cons_prefix_cons.1 htail).1.symm

/-- No empty line begins in a folded text. -/
theorem clear_of_folded {x : List Byte} (hx : Folded x) (y : List Byte) :
    Clear emptyLine (x ++ y) x.length := by
  induction hx with
  | nil =>
      intro i hi
      cases hi
  | char h _ ih =>
      intro i hi
      cases i with
      | zero => exact not_emptyLine_of_fst h
      | succ i => exact ih i (Nat.lt_of_succ_lt_succ hi)
  | @fold c x h _ ih =>
      have hc : c ≠ 13 := by rcases h with rfl | rfl <;> decide
      intro i hi
      match i with
      | 0 => exact not_emptyLine_of_thd hc
      | 1 => exact not_emptyLine_of_fst (by decide)
      | 2 => exact not_emptyLine_of_fst hc
      | i + 3 =>
          simp only [List.length_cons] at hi
          exact ih i (by omega)

/-- **The first empty line** is the one after the headers. -/
theorem firstEnd_head {x y : List Byte} (hx : Folded x) (hy : HeaderLines y) (rest : List Byte) :
    FirstEnd emptyLine (x ++ 13 :: 10 :: y ++ 13 :: 10 :: rest)
      (x ++ 13 :: 10 :: y ++ [13, 10]).length := by
  induction hy generalizing x with
  | nil =>
      refine ⟨x.length, by simp [emptyLine], ?_, ?_⟩
      · rw [List.append_assoc, List.drop_left]
        exact ⟨rest, rfl⟩
      · rw [List.append_assoc]
        exact clear_of_folded hx _
  | @cons c z y hc hz _ ih =>
      -- neither the line before nor the end of it begins an empty line
      have hclear : Clear emptyLine (x ++ 13 :: 10 :: (c :: z ++ 13 :: 10 :: y) ++ 13 :: 10 :: rest)
          (x.length + 2) := by
        intro i hi
        rw [List.append_assoc]
        by_cases hlt : i < x.length
        · exact clear_of_folded hx _ i hlt
        · have hsplit : i = x.length ∨ i = x.length + 1 := by omega
          rcases hsplit with rfl | rfl
          · rw [List.drop_left]
            exact not_emptyLine_of_thd hc
          · rw [List.drop_length_add_append]
            exact not_emptyLine_of_fst (by decide)
      have hdrop : (x ++ 13 :: 10 :: (c :: z ++ 13 :: 10 :: y) ++ 13 :: 10 :: rest).drop
          (x.length + 2) = c :: z ++ 13 :: 10 :: y ++ 13 :: 10 :: rest := by
        rw [List.append_assoc, List.drop_length_add_append]
        rfl
      have hrest := FirstEnd.shift hclear (hdrop.symm ▸ ih hz)
      have hlength : (x ++ 13 :: 10 :: (c :: z ++ 13 :: 10 :: y) ++ [13, 10]).length =
          x.length + 2 + (c :: z ++ 13 :: 10 :: y ++ [13, 10]).length := by
        simp only [List.length_append, List.length_cons, List.length_nil]
        omega
      rw [hlength]
      exact hrest

/-! ### What the rules accept -/

theorem ne_return_of_octet {c : Byte} (h : octet c ≠ 13) : c ≠ 13 := by
  rintro rfl
  exact h rfl

theorem crlf_ensures : Ensures (recognizer octet CRLF) fun y => y = [13, 10] := by
  rw [recognizer_CRLF]
  refine (lit_ensures '\r' 13 rfl).seq_of (lit_ensures '\n' 10 rfl) fun x y hx hy => ?_
  rw [hx, hy]
  rfl

theorem blankChar_ensures :
    Ensures (recognizer octet blankChar) fun y => ∃ c, (c = 32 ∨ c = 9) ∧ y = [c] := by
  rw [recognizer_class (g := blankChar) rfl]
  refine Ensures.satisfy fun c hc => ⟨c, ?_, rfl⟩
  simp only [has, blankChar, Rule.test, Rule.test.testAny, Bool.or_false, Bool.or_eq_true,
    decide_eq_true_eq, List.cons.injEq, and_true] at hc
  exact hc.imp (fun h => octet_injective (b := 32) h.symm) fun h => octet_injective (b := 9) h.symm

theorem folded_blankChar : Ensures (recognizer octet blankChar) Folded := by
  refine blankChar_ensures.mono ?_
  rintro _ ⟨c, hc, rfl⟩
  exact .char (by rcases hc with rfl | rfl <;> decide) .nil

/-- White space with a fold, or without. -/
theorem folded_LWS : Ensures (recognizer octet LWS) Folded := by
  have hend : Ensures (.opt (recognizer octet CRLF)) fun y => y = [] ∨ y = [13, 10] :=
    (crlf_ensures.mono fun _ => .inr).opt (.inl rfl)
  have hblanks := blankChar_ensures.seq_of (folded_blankChar.star additive_folded)
    (R := fun y => ∃ c x, (c = 32 ∨ c = 9) ∧ Folded x ∧ y = c :: x) (by
      rintro _ x ⟨c, hc, rfl⟩ hx
      exact ⟨c, x, hc, hx, rfl⟩)
  rw [recognizer_LWS]
  refine hend.seq_of hblanks ?_
  rintro _ _ (rfl | rfl) ⟨c, x, hc, hx, rfl⟩
  · exact .char (by rcases hc with rfl | rfl <;> decide) hx
  · exact .fold hc hx

/-- A character that is not a control character is not a carriage return. -/
theorem ne_return_of_not_iscntrl {c : Byte} (h : Cctype.test .iscntrl (octet c) = false) :
    c ≠ 13 := by
  rintro rfl
  cases h

theorem folded_fieldValue : Ensures (recognizer octet field_value) Folded := by
  have htext : Ensures (recognizer octet textChar) Folded := by
    rw [recognizer_class (g := textChar) rfl]
    refine Ensures.satisfy fun c hc => .char (ne_return_of_not_iscntrl ?_) .nil
    simpa [has, textChar, CTLs, Rule.test] using hc
  rw [recognizer_fieldValue, recognizer_TEXT]
  exact ((folded_LWS.alt htext).star additive_folded).star additive_folded

/-- A text that begins with something else than a carriage return. -/
def Started (y : List Byte) : Prop := ∃ c x, c ≠ 13 ∧ Folded (c :: x) ∧ y = c :: x

theorem Started.folded {y : List Byte} (h : Started y) : Folded y := by
  obtain ⟨c, x, -, hx, rfl⟩ := h
  exact hx

theorem Started.append {x y : List Byte} (hx : Started x) (hy : Folded y) : Started (x ++ y) := by
  obtain ⟨c, x, hc, hx, rfl⟩ := hx
  exact ⟨c, x ++ y, hc, hx.append hy, rfl⟩

theorem started_token : Ensures (recognizer octet token) Started := by
  have hchar : Ensures (recognizer octet tokenChar) Started := by
    rw [recognizer_class (g := tokenChar) rfl]
    refine Ensures.satisfy fun c hc => ?_
    have hctl : Cctype.test .iscntrl (octet c) = false := by
      simp only [has, tokenChar, CTLs, Rule.test, Rule.test.testAny, Bool.and_true,
        Bool.not_or, Bool.and_eq_true, Bool.not_eq_true'] at hc
      exact hc.1
    have hne := ne_return_of_not_iscntrl hctl
    exact ⟨c, [], hne, .char hne .nil, rfl⟩
  rw [recognizer_tokenRule]
  exact hchar.seq_of ((hchar.mono fun _ => Started.folded).star additive_folded)
    fun _ _ => Started.append

theorem started_messageHeader : Ensures (recognizer octet message_header) Started := by
  have hcolon : Ensures (recognizer octet (lit ':')) Folded :=
    (lit_ensures ':' 58 rfl).mono fun _ h => h ▸ .char (by decide) .nil
  have hblanks := folded_LWS.star additive_folded
  rw [recognizer_messageHeader]
  exact started_token.seq_of (hblanks.seq additive_folded (hcolon.seq additive_folded
    (hblanks.seq additive_folded (folded_fieldValue.opt .nil)))) fun _ _ => Started.append

/-- **Headers, each with the end of its line.** -/
theorem headerLines_ensures :
    Ensures (.star (recognizer octet (Glue [message_header, CRLF]))) HeaderLines := by
  have hline : Ensures (recognizer octet (Glue [message_header, CRLF]))
      fun y => ∃ x, Started x ∧ y = x ++ [13, 10] := by
    rw [recognizer_headerLine, ← Recognizer.seq_assoc]
    have hheader := started_messageHeader.seq_of (folded_LWS.star additive_folded)
      fun _ _ => Started.append
    exact hheader.seq_of crlf_ensures fun x y hx hy => ⟨x, hx, hy ▸ rfl⟩
  refine hline.star_of .nil ?_
  rintro _ y ⟨_, ⟨c, x, hc, hx, rfl⟩, rfl⟩ hy
  rw [List.append_assoc]
  exact .cons hc hx hy

/-- The metafunctions in a request line, but for that of extension methods. -/
def lineName : Name → Bool
  | .param_ | .userinfo_ | .query_ | .fragment_ | .scheme_ | .Star_ | .HTTP_major_version_
  | .HTTP_minor_version_ => true
  | _ => false

/-- The character functions that a carriage return does not pass. -/
def lineClass : Cctype → Bool
  | .iscntrl | .isspace => false
  | _ => true

/-- The parts of a request line have no carriage return. -/
theorem folded_line {g : Grammar}
    (hg : g.Each (Rule.Within (fun z => decide (z ≠ 13)) lineClass lineName)) :
    Ensures (recognizer octet g) Folded := by
  refine recognizer_ensures additive_folded (fun c hc => ?_) (fun f hf c hc => ?_)
    (fun m hm => ?_) hg
  · exact .char (ne_return_of_octet (of_decide_eq_true hc)) .nil
  · refine decide_eq_true fun h13 => ?_
    rw [h13] at hc
    cases f <;> first | exact absurd hc (by decide) | exact absurd hf (by decide)
  · cases m <;> first | exact ⟨rfl, of_decide_eq_true rfl⟩ | cases hm

theorem requestLine_ensures :
    Ensures (recognizer octet Request_Line) fun y => ∃ x, Folded x ∧ y = x ++ [13, 10] := by
  have hmethod : Ensures (recognizer octet Method) Folded := by
    rw [Method, recognizer_choice, extension_method, recognizer_forwardRef _ _ rfl]
    exact (folded_line (of_decide_eq_true rfl)).alt (started_token.mono fun _ => Started.folded)
  have hspace : Ensures (recognizer octet SP) Folded := folded_line (of_decide_eq_true rfl)
  have htarget : Ensures (recognizer octet Request_URI) Folded :=
    folded_line (of_decide_eq_true rfl)
  have hversion : Ensures (recognizer octet HTTP_Version) Folded :=
    folded_line (of_decide_eq_true rfl)
  have hend : Ensures (.seq (recognizer octet HTTP_Version) (recognizer octet CRLF))
      fun y => ∃ x, Folded x ∧ y = x ++ [13, 10] :=
    hversion.seq_of crlf_ensures fun x y hx hy => ⟨x, hx, hy ▸ rfl⟩
  have hprepend : ∀ {f g : Recognizer Byte}, Ensures f Folded →
      Ensures g (fun y => ∃ x, Folded x ∧ y = x ++ [13, 10]) →
      Ensures (.seq f g) fun y => ∃ x, Folded x ∧ y = x ++ [13, 10] := by
    intro f g hf hg
    refine hf.seq_of hg ?_
    rintro x _ hx ⟨y, hy, rfl⟩
    exact ⟨x ++ y, hx.append hy, (List.append_assoc _ _ _).symm⟩
  rw [Request_Line, recognizer_concat, recognizer_concat, recognizer_concat, recognizer_concat,
    recognizer_pair]
  exact hprepend hmethod (hprepend hspace (hprepend htarget (hprepend hspace hend)))

/-- What is accepted as a request is a line, headers and an empty line. -/
theorem request_ensures : Ensures (recognizer octet Http.Grammar.Request) fun y =>
    ∃ x z, Folded x ∧ HeaderLines z ∧ y = x ++ 13 :: 10 :: z ++ [13, 10] := by
  rw [recognizer_request]
  refine requestLine_ensures.seq_of (headerLines_ensures.seq_of crlf_ensures
    (R := fun y => ∃ z, HeaderLines z ∧ y = z ++ [13, 10]) fun z y hz hy => ⟨z, hz, hy ▸ rfl⟩) ?_
  rintro _ _ ⟨x, hx, rfl⟩ ⟨z, hz, rfl⟩
  exact ⟨x, z, hx, hz, by simp⟩

/-- **A request is accepted up to the end of the first empty line** of the input. -/
theorem request_framing {s : List Byte} {r : ParseResult}
    (h : Parses octets Http.Grammar.Request s r) (hr : r.ok = true) :
    FirstEnd emptyLine s r.pos := by
  have haccept := h.verdict_eq octet_inLookup (n := 64) (of_decide_eq_true rfl) rfl
  rw [ParseResult.eq_success hr, ParseResult.verdict_success] at haccept
  obtain ⟨x, z, hx, hz, htake⟩ := request_ensures s r.pos haccept.symm
  have hlength : r.pos = (x ++ 13 :: 10 :: z ++ [13, 10]).length := by
    rw [← htake, List.length_take, Nat.min_eq_left (Recognizer.le_length haccept.symm)]
  have hsplit : s = x ++ 13 :: 10 :: z ++ 13 :: 10 :: s.drop r.pos := by
    have happend := List.take_append_drop r.pos s
    rw [htake] at happend
    simpa using happend.symm
  have hfirst := firstEnd_head hx hz (s.drop r.pos)
  rwa [← hsplit, ← hlength] at hfirst

/-- A request with a folded header and a second empty line. -/
theorem request_framing_folded : ∃ r,
    Parses octets Http.Grammar.Request (bytes "GET / HTTP/1.1\r\na: b\r\n c\r\n\r\n\r\n\r\n") r ∧
      FirstEnd emptyLine (bytes "GET / HTTP/1.1\r\na: b\r\n c\r\n\r\n\r\n\r\n") r.pos := by
  obtain ⟨r, h, hv⟩ := exists_parses octet_inLookup (n := 64) (g := Http.Grammar.Request)
    (bytes "GET / HTTP/1.1\r\na: b\r\n c\r\n\r\n\r\n\r\n") (of_decide_eq_true rfl) rfl
  have haccept : recognizer octet Http.Grammar.Request
      (bytes "GET / HTTP/1.1\r\na: b\r\n c\r\n\r\n\r\n\r\n") = .accept 28 := by
    decide
  rw [haccept, ParseResult.verdict_eq_accept] at hv
  exact ⟨r, h, request_framing h (by rw [hv]; rfl)⟩

end Hittop
