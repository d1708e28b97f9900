/-
**The heads of messages.**

A message is a request or a response, and the first five characters say which: a response begins
with the protocol version, and no method does.  So the rules for messages, of which one chooses
between heads and the other between first lines, agree on every input, although the one for
responses does not skip white space at the ends of its headers.

Main definitions:

* `Hittop.Answers` — the verdict of the parser of a rule;
* `Hittop.Http.Text.statusLine`, `Hittop.Http.Text.message` — the texts of status lines and of
  heads.

Main results:

* `Hittop.message_dispatch` — what decides between requests and responses;
* `Hittop.message_framing` — a message is accepted up to the end of the first empty line;
* `Hittop.status_line_exact` — the texts that are accepted as status lines, and their prefixes;
* `Hittop.response_streamed` — the text of a response asks for more until its end.
-/

import Hittop.Http.Framing
import Hittop.Http.Methods
import Hittop.Uri.Retries

set_option relaxedAutoImplicit false
set_option autoImplicit false

namespace Hittop

open Uri.Grammar (lit)
open Http.Grammar Recognizer
open scoped Computability

/-! ### Texts -/

namespace Http.Text

/-- Three digits. -/
def code : Language Byte := {x | x.length = 3 ∧ ∀ c ∈ x, Cctype.test .isdigit (octet c) = true}

/-- A character of a reason phrase: a tab, or no control character. -/
def reasonChar (c : Byte) : Bool := decide (c = 9) || !Cctype.test .iscntrl (octet c)

def reason : Language Byte := {x | ∀ c ∈ x, reasonChar c = true}

/-- `"HTTP/" major "." minor` -/
def version : Language Byte := {bytes "HTTP/"} * (digits * ({bytes "."} * digits))

/-- `version SP code SP reason CRLF` -/
def statusLine : Language Byte :=
  version * ({bytes " "} * (code * ({bytes " "} * (reason * {bytes "\r\n"}))))

/-- The parts of a status line. -/
theorem mem_statusLine {x : List Byte} (hx : x ∈ statusLine) :
    ∃ d₁ ∈ digits, ∃ d₂ ∈ digits, ∃ k ∈ code, ∃ phrase ∈ reason,
      x = (bytes "HTTP/" ++ (d₁ ++ (bytes "." ++ d₂))) ++
        (bytes " " ++ (k ++ (bytes " " ++ (phrase ++ bytes "\r\n")))) := by
  obtain ⟨_, ⟨_, rfl, _, ⟨d₁, h₁, _, ⟨_, rfl, d₂, h₂, rfl⟩, rfl⟩, rfl⟩, _, ⟨_, rfl, _, ⟨k, hk, _,
    ⟨_, rfl, _, ⟨phrase, hphrase, _, rfl, rfl⟩, rfl⟩, rfl⟩, rfl⟩, rfl⟩ := hx
  exact ⟨d₁, h₁, d₂, h₂, k, hk, phrase, hphrase, rfl⟩

/-- A first line, headers and an empty line. -/
def message (line : List Byte) (headers : List (Header Byte)) : List Byte :=
  line ++ (headers.flatMap headerLine ++ bytes "\r\n")

end Http.Text

/-- The parser of the rule, without a visitor, has the verdict. -/
def Answers (g : Grammar) (s : List Byte) (v : Verdict) : Prop :=
  ∃ r, Parses octets g s r ∧ r.verdict = v

theorem answers_iff {g : Grammar} (hg : g.isPlain = true) {s : List Byte} {v : Verdict} :
    Answers g s v ↔ recognizer octet g s = v := by
  simp only [Rule.isPlain, Bool.and_eq_true, decide_eq_true_eq] at hg
  obtain ⟨⟨-, hregular⟩, hquiet⟩ := hg
  obtain ⟨r, hr, hv⟩ := exists_parses octet_inLookup s hregular hquiet
  constructor
  · rintro ⟨r', hr', rfl⟩
    rw [hr'.unique hr, hv]
  · rintro rfl
    exact ⟨r, hr, hv⟩

theorem plain_request : Rule.isPlain Http.Grammar.Request = true := rfl

theorem plain_response : Rule.isPlain Response = true := rfl

theorem plain_message : Rule.isPlain HTTP_message = true := rfl

theorem plain_generic : Rule.isPlain generic_message = true := rfl

theorem plain_statusLine : Rule.isPlain Status_Line = true := rfl

/-! ### White space at the end of a header -/

theorem ensures_LWS_ne_nil : Ensures (recognizer octet LWS) (· ≠ []) := by
  have hblanks : Ensures (.seq (recognizer octet blankChar) (.star (recognizer octet blankChar)))
      (· ≠ []) := by
    refine blankChar_ensures.seq_of (Q := fun _ => True)
      (Ensures.star_of (P := fun _ => True) (fun _ _ _ => trivial) trivial
        fun _ _ _ _ => trivial) ?_
    rintro _ y ⟨c, -, rfl⟩ -
    simp
  rw [recognizer_LWS]
  exact Ensures.seq_of (P := fun _ => True) (fun _ _ _ => trivial) hblanks
    fun x y _ hy h => hy (List.append_eq_nil_iff.1 h).2

theorem ensures_TEXT_ne_nil : Ensures (recognizer octet TEXT) (· ≠ []) := by
  rw [recognizer_TEXT, recognizer_class (g := textChar) rfl]
  exact ensures_LWS_ne_nil.alt (Ensures.satisfy fun c _ => by simp)

/-- The value of a header takes all of the white space behind it. -/
theorem LWS_reject_fieldValue (s : List Byte) (n : ℕ)
    (h : recognizer octet field_value s = .accept n) :
    recognizer octet LWS (s.drop n) = .reject := by
  -- neither loop of the value goes on, so that there is no text
  have htext : recognizer octet TEXT (s.drop n) = .reject := by
    have hzero : star (recognizer octet TEXT) (s.drop n) = .accept 0 := by
      rw [recognizer_fieldValue] at h
      exact (star_stop h).resolve_left (star_ne_reject _ _)
    rcases star_stop hzero with hstop | hstop
    · simpa using hstop
    · exact absurd (by simp) (ensures_TEXT_ne_nil _ _ hstop)
  by_contra hne
  rw [recognizer_TEXT, alt_of_ne_reject hne] at htext
  exact hne htext

/-- No white space is left behind a sequence if none is behind its last part. -/
theorem LWS_reject_seq {f g : Recognizer Byte}
    (hg : ∀ s n, g s = .accept n → recognizer octet LWS (s.drop n) = .reject) (s : List Byte)
    (n : ℕ) (h : Recognizer.seq f g s = .accept n) :
    recognizer octet LWS (s.drop n) = .reject := by
  obtain ⟨a, b, -, hb, rfl⟩ := seq_eq_accept.1 h
  rw [← List.drop_drop]
  exact hg _ _ hb

theorem LWS_reject_messageHeader (s : List Byte) (n : ℕ)
    (h : recognizer octet message_header s = .accept n) :
    recognizer octet LWS (s.drop n) = .reject := by
  have hopt : Recognizer.opt (recognizer octet field_value) = recognizer octet field_value := by
    rw [recognizer_fieldValue]
    exact alt_of_lenient (lenient_star _)
  rw [recognizer_messageHeader, hopt] at h
  exact LWS_reject_seq (LWS_reject_seq (LWS_reject_seq (LWS_reject_seq LWS_reject_fieldValue))) s n
    h

/-- **The glue at the ends of headers** makes no difference. -/
theorem recognizer_headerLine_plain :
    recognizer octet (.concat [message_header, CRLF]) =
      recognizer octet (Glue [message_header, CRLF]) := by
  rw [recognizer_headerLine, recognizer_pair]
  exact (seq_star_of_reject LWS_reject_messageHeader).symm

/-- What comes after the first line of a message. -/
def headerBlock : Recognizer Byte :=
  .seq (.star (recognizer octet (Glue [message_header, CRLF]))) (recognizer octet CRLF)

theorem recognizer_request_line : recognizer octet Http.Grammar.Request =
    .seq (recognizer octet Request_Line) headerBlock := recognizer_request octet

theorem recognizer_response : recognizer octet Response =
    .seq (recognizer octet Status_Line) headerBlock := by
  rw [Response, recognizer_concat, recognizer_pair, recognizer_repeat,
    recognizer_headerLine_plain, headerBlock]

theorem recognizer_generic : recognizer octet generic_message =
    .seq (.alt (recognizer octet Request_Line) (recognizer octet Status_Line)) headerBlock := by
  rw [generic_message, recognizer_concat, recognizer_pair, recognizer_repeat, start_line,
    recognizer_choice, headerBlock]

theorem recognizer_message : recognizer octet HTTP_message =
    .alt (.seq (recognizer octet Request_Line) headerBlock)
      (.seq (recognizer octet Status_Line) headerBlock) := by
  rw [HTTP_message, recognizer_choice, recognizer_request_line, recognizer_response]

/-! ### The first five characters -/

theorem recognizer_statusLine : recognizer octet Status_Line =
    .seq (recognizer octet HTTP_Version) (.seq (recognizer octet SP)
      (.seq (recognizer octet Status_Code) (.seq (recognizer octet SP)
        (.seq (recognizer octet Reason_Phrase) (recognizer octet CRLF))))) := by
  rw [Status_Line, recognizer_concat, recognizer_concat, recognizer_concat, recognizer_concat,
    recognizer_pair]

theorem recognizer_version : recognizer octet HTTP_Version =
    .seq (.text octet ((bytes "HTTP/").map octet)) (.seq (recognizer octet HTTP_major_version)
      (.seq (recognizer octet (lit '.')) (recognizer octet HTTP_minor_version))) := by
  rw [HTTP_Version, recognizer_concat, recognizer_concat, recognizer_pair]
  rfl

/-- What begins with the version is no request line. -/
theorem requestLine_reject {s : List Byte} (h : bytes "HTTP/" <+: s) :
    recognizer octet Request_Line s = .reject := by
  have hshort : recognizer octet Request_Line (bytes "HTTP/") = .reject := by decide +kernel
  obtain ⟨t, rfl⟩ := h
  rw [final_recognizer rfl _ t (by rw [hshort]; nofun), hshort]

/-- What may go on to begin with the version may go on to be a request line. -/
theorem requestLine_incomplete {s : List Byte} (h : s <+: bytes "HTTP/")
    (hne : ¬ bytes "HTTP/" <+: s) : recognizer octet Request_Line s = .incomplete := by
  have hall : ∀ k < 5, recognizer octet Request_Line ((bytes "HTTP/").take k) = .incomplete := by
    decide +kernel
  rw [List.prefix_iff_eq_take] at h
  have hlt : s.length < 5 := by
    by_contra hge
    have hle : (bytes "HTTP/").length ≤ s.length := Nat.le_of_not_lt hge
    rw [h, List.take_of_length_le hle] at hne
    exact hne (List.prefix_refl _)
  rw [h]
  exact hall _ hlt

/-- What neither begins with the version nor ends before it is no status line. -/
theorem statusLine_reject {s : List Byte} (h : ¬ bytes "HTTP/" <+: s)
    (hne : ¬ s <+: bytes "HTTP/") : recognizer octet Status_Line s = .reject := by
  rw [recognizer_statusLine, recognizer_version]
  exact seq_of_reject (seq_of_reject (Recognizer.text_reject
    (fun hp => h (prefix_of_map_octet hp)) fun hp => hne (prefix_of_map_octet hp)))

/-- No text is accepted as both of the first lines. -/
theorem firstLines_apart {s : List Byte} {n : ℕ} (h : recognizer octet Request_Line s = .accept n) :
    recognizer octet Status_Line s = .reject := by
  refine statusLine_reject (fun hp => ?_) fun hp => ?_
  · rw [requestLine_reject hp] at h
    cases h
  · by_cases hp' : bytes "HTTP/" <+: s
    · rw [requestLine_reject hp'] at h
      cases h
    · rw [requestLine_incomplete hp hp'] at h
      cases h

theorem recognizer_generic_eq :
    recognizer octet generic_message = recognizer octet HTTP_message := by
  rw [recognizer_generic, recognizer_message]
  exact seq_alt fun _ _ => firstLines_apart

theorem message_apply (s : List Byte) : recognizer octet HTTP_message s =
    if bytes "HTTP/" <+: s then recognizer octet Response s
    else recognizer octet Http.Grammar.Request s := by
  rw [recognizer_message, recognizer_response, recognizer_request_line]
  split_ifs with hp
  · exact alt_of_reject (seq_of_reject (requestLine_reject hp))
  · by_cases hp' : s <+: bytes "HTTP/"
    · rw [alt_of_ne_reject]
      rw [seq_of_incomplete (requestLine_incomplete hp' hp)]
      nofun
    · exact alt_of_reject_right (seq_of_reject (statusLine_reject hp hp'))

/-- **The first five characters decide** between requests and responses: both rules for messages
have the verdict of the rule they select. -/
theorem message_dispatch (s : List Byte) (v : Verdict) :
    (Answers HTTP_message s v ↔
      Answers (if bytes "HTTP/" <+: s then Response else Http.Grammar.Request) s v) ∧
    (Answers generic_message s v ↔ Answers HTTP_message s v) := by
  rw [answers_iff plain_message, answers_iff plain_generic, recognizer_generic_eq]
  refine ⟨?_, Iff.rfl⟩
  rw [message_apply]
  split_ifs with hp
  · rw [answers_iff plain_response]
  · rw [answers_iff plain_request]

/-! ### Status lines -/

theorem recognizer_blankChar : recognizer octet blankChar =
    .satisfy fun c => decide (c ∈ bytes " \t") :=
  recognizer_octets rfl fun c => has_literals " \t" rfl rfl c

/-- The first character of a line end excludes a fold, so that a phrase is a run of characters. -/
theorem recognizer_reason :
    recognizer octet Reason_Phrase = .star (.satisfy Http.Text.reasonChar) := by
  have hends : recognizer octet (.either [lit '\r', lit '\n']) =
      .satisfy fun c => decide (c ∈ bytes "\r\n") :=
    recognizer_octets rfl fun c => has_literals "\r\n" rfl rfl c
  have htext : recognizer octet textChar =
      .satisfy fun c => !Cctype.test .iscntrl (octet c) := by
    refine recognizer_octets rfl fun c => ?_
    simp [has, textChar, CTLs, Rule.test]
  have hrule : recognizer octet (.unless_ (.either [lit '\r', lit '\n']) TEXT) =
      .alt (.seq (recognizer octet blankChar) (.star (recognizer octet blankChar)))
        (recognizer octet textChar) := by
    rw [recognizer_unless, recognizer_TEXT, recognizer_LWS, hends]
    refine Recognizer.ext fun s => ?_
    cases s with
    | nil => rw [recognizer_blankChar]; rfl
    | cons c s =>
        by_cases hc : c ∈ bytes "\r\n"
        · -- neither a blank nor a character outside of a fold
          have hline : c = 13 ∨ c = 10 := by simpa [bytes] using hc
          have hblank : decide (c ∈ bytes " \t") = false := by
            rcases hline with rfl | rfl <;> decide
          have hcontrol : Cctype.test .iscntrl (octet c) = true := by
            rcases hline with rfl | rfl <;> decide
          have hno : recognizer octet blankChar (c :: s) = .reject := by
            rw [recognizer_blankChar]
            exact satisfy_reject hblank
          have hplain : recognizer octet textChar (c :: s) = .reject := by
            rw [htext]
            exact satisfy_reject (by simp [hcontrol])
          rw [alt_of_reject (seq_of_reject hno), hplain, exclude_apply]
          simp [hc]
        · have h13 : c ≠ 13 := fun h => hc (by rw [h]; decide)
          have hend : recognizer octet CRLF (c :: s) = .reject := by
            rw [recognizer_CRLF]
            exact seq_of_reject (lit_reject (fun h => h13 (octet_injective (b := 13) h)) s)
          have hopt : Recognizer.opt (recognizer octet CRLF) (c :: s) = .accept 0 := by
            rw [Recognizer.opt, alt_of_reject hend, eps_apply]
          rw [exclude_of_reject (by simp [hc]), alt_apply, seq_of_accept hopt, List.drop_zero,
            Verdict.advance_zero, ← alt_apply]
  rw [Reason_Phrase, recognizer_repeat, hrule, recognizer_blankChar, htext, star_run_alt]
  congr 2
  funext c
  by_cases h32 : c = 32
  · subst h32
    decide
  · simp [Http.Text.reasonChar, bytes, h32]

/-- A number of a version is a run of digits. -/
theorem recognizer_digits {m : Name} (hm : m.settled = true) (htype : m.type = .atLeast 1 DIGIT) :
    recognizer octet (.forwardRef m) =
      .seq (.satisfy fun c => Cctype.test .isdigit (octet c))
        (.star (.satisfy fun c => Cctype.test .isdigit (octet c))) := by
  rw [recognizer_forwardRef _ _ hm, htype, recognizer_atLeast_one, DIGIT, recognizer_charFilter]

theorem recognizer_code : recognizer octet Status_Code =
    .power (.satisfy fun c => Cctype.test .isdigit (octet c)) 3 := rfl

/-- The texts of a character, and those of a line end. -/
theorem confined_lit {x : Char} {b : Byte} (h : octet b = ch x) :
    Confined (recognizer octet (lit x)) {[b]} := by
  have hinjective : Function.Injective octet := fun _ _ => octet_injective
  have htext := Confined.text hinjective [b]
  rwa [List.map_singleton, h] at htext

theorem confined_CRLF : Confined (recognizer octet CRLF) {bytes "\r\n"} := by
  have hboth := (confined_lit (x := '\r') (b := 13) rfl).mul
    (confined_lit (x := '\n') (b := 10) rfl)
  have hmul : ({[13]} * {[10]} : Language Byte) = {bytes "\r\n"} := Set.image2_singleton
  rwa [recognizer_CRLF, ← hmul]

theorem confined_version : Confined (recognizer octet HTTP_Version) Http.Text.version := by
  have hdigits {m : Name} (hm : m.settled = true) (htype : m.type = .atLeast 1 DIGIT) :
      Confined (recognizer octet (.forwardRef m)) Http.Text.digits := by
    rw [recognizer_digits hm htype]
    exact Confined.some_satisfy (a := 48) (by decide)
  rw [recognizer_version]
  exact (Confined.text (fun _ _ => octet_injective) _).mul
    ((hdigits (m := .HTTP_major_version_) rfl rfl).mul
      ((confined_lit rfl).mul (hdigits (m := .HTTP_minor_version_) rfl rfl)))

theorem confined_statusLine : Confined (recognizer octet Status_Line) Http.Text.statusLine := by
  have hspace : Confined (recognizer octet SP) {bytes " "} := confined_lit rfl
  have hcode : Confined (recognizer octet Status_Code) Http.Text.code :=
    Confined.power_satisfy (a := 48) (by decide) 3
  have hreason : Confined (recognizer octet Reason_Phrase) Http.Text.reason := by
    rw [recognizer_reason]
    exact Confined.star_satisfy
  rw [recognizer_statusLine]
  exact confined_version.mul (hspace.mul (hcode.mul (hspace.mul (hreason.mul confined_CRLF))))

theorem reads_version {d₁ d₂ : List Byte} (h₁ : d₁ ∈ Http.Text.digits)
    (h₂ : d₂ ∈ Http.Text.digits) {c : Byte} (hc : Cctype.test .isdigit (octet c) = false)
    (y : List Byte) :
    (recognizer octet HTTP_Version).Reads (bytes "HTTP/" ++ (d₁ ++ (bytes "." ++ d₂)))
      (c :: y) := by
  have hmajor : (recognizer octet HTTP_major_version).Reads d₁ ((bytes "." ++ d₂) ++ c :: y) :=
    reads_digits rfl rfl h₁ (c := 46) (by decide)
  have hminor : (recognizer octet HTTP_minor_version).Reads d₂ (c :: y) :=
    reads_digits rfl rfl h₂ hc
  rw [recognizer_version]
  exact (Reads.text octet _ _).seq (hmajor.seq ((reads_lit rfl _).seq hminor))

/-- **A status line is read** whatever follows. -/
theorem reads_statusLine {x : List Byte} (hx : x ∈ Http.Text.statusLine) (y : List Byte) :
    (recognizer octet Status_Line).Reads x y := by
  obtain ⟨d₁, h₁, d₂, h₂, k, ⟨hlength, hk⟩, phrase, hphrase, rfl⟩ := Http.Text.mem_statusLine hx
  have hspace (z : List Byte) : (recognizer octet SP).Reads (bytes " ") z := reads_lit rfl z
  have hdigits (z : List Byte) : (recognizer octet Status_Code).Reads k z := by
    rw [recognizer_code, ← hlength]
    exact Reads.power_satisfy hk
  have hreason (z : List Byte) :
      (recognizer octet Reason_Phrase).Reads phrase (bytes "\r\n" ++ z) := by
    rw [recognizer_reason]
    exact Reads.star_satisfy hphrase (satisfy_reject (c := 13) (by decide))
  rw [recognizer_statusLine]
  exact (reads_version h₁ h₂ (c := 32) (by decide) _).seq ((hspace _).seq ((hdigits _).seq
    ((hspace _).seq ((hreason y).seq reads_CRLF))))

/-- **The texts that are accepted as status lines** are those with a version, a code of three digits
and a phrase without control characters but tabs; and more is asked for exactly as long as the input
may go on to be one. -/
theorem status_line_exact (s : List Byte) :
    (∀ n, Answers Status_Line s (.accept n) ↔
      n ≤ s.length ∧ s.take n ∈ Http.Text.statusLine) ∧
    (Answers Status_Line s .incomplete ↔ ∃ x ∈ Http.Text.statusLine, s <+: x ∧ s ≠ x) := by
  simp only [answers_iff plain_statusLine]
  exact confined_statusLine.exact (final_recognizer plain_statusLine)
    (fun x hx y => reads_statusLine hx y) s

/-! ### Heads -/

/-- The status line of a response has no carriage return but the one at its end. -/
theorem folded_statusLine : Ensures (recognizer octet Status_Line)
    fun y => ∃ x, Folded x ∧ y = x ++ [13, 10] := by
  have hall {x : List Byte} (hx : 13 ∉ x) : Folded x := by
    induction x with
    | nil => exact .nil
    | cons c x ih =>
        rw [List.mem_cons, not_or] at hx
        exact .char (Ne.symm hx.1) (ih hx.2)
  have hdigit {x : List Byte} (hx : ∀ c ∈ x, Cctype.test .isdigit (octet c) = true) : Folded x :=
    hall fun h13 => absurd (hx 13 h13) (by decide)
  refine confined_statusLine.accepted.mono ?_
  intro y hy
  obtain ⟨d₁, h₁, d₂, h₂, k, hk, phrase, hphrase, rfl⟩ := Http.Text.mem_statusLine hy
  have hreason : Folded phrase := hall fun h13 => absurd (hphrase 13 h13) (by decide)
  have hfixed : Folded (bytes "HTTP/") ∧ Folded (bytes ".") ∧ Folded (bytes " ") :=
    ⟨hall (by decide), hall (by decide), hall (by decide)⟩
  refine ⟨(bytes "HTTP/" ++ (d₁ ++ (bytes "." ++ d₂))) ++ (bytes " " ++ (k ++ (bytes " " ++
    phrase))), ?_, by simp [bytes]⟩
  exact (hfixed.1.append ((hdigit h₁.2).append (hfixed.2.1.append (hdigit h₂.2)))).append
    (hfixed.2.2.append ((hdigit hk.2).append (hfixed.2.2.append hreason)))

/-- What is accepted as a message is a line, headers and an empty line. -/
theorem message_ensures : Ensures (recognizer octet HTTP_message) fun y =>
    ∃ x z, Folded x ∧ HeaderLines z ∧ y = x ++ 13 :: 10 :: z ++ [13, 10] := by
  have hblock : Ensures headerBlock fun y => ∃ z, HeaderLines z ∧ y = z ++ [13, 10] :=
    headerLines_ensures.seq_of crlf_ensures fun z y hz hy => ⟨z, hz, hy ▸ rfl⟩
  have hhead {f : Recognizer Byte}
      (hf : Ensures f fun y => ∃ x, Folded x ∧ y = x ++ [13, 10]) :
      Ensures (.seq f headerBlock) fun y =>
        ∃ x z, Folded x ∧ HeaderLines z ∧ y = x ++ 13 :: 10 :: z ++ [13, 10] := by
    refine hf.seq_of hblock ?_
    rintro _ _ ⟨x, hx, rfl⟩ ⟨z, hz, rfl⟩
    exact ⟨x, z, hx, hz, by simp⟩
  rw [recognizer_message]
  exact (hhead requestLine_ensures).alt (hhead folded_statusLine)

/-- **A message is accepted up to the end of the first empty line** of the input. -/
theorem message_framing (s : List Byte) (n : ℕ) (h : Answers HTTP_message s (.accept n)) :
    FirstEnd emptyLine s n := by
  rw [answers_iff plain_message] at h
  obtain ⟨x, z, hx, hz, htake⟩ := message_ensures s n h
  have hlength : n = (x ++ 13 :: 10 :: z ++ [13, 10]).length := by
    rw [← htake, List.length_take, Nat.min_eq_left (le_length h)]
  have hsplit : s = x ++ 13 :: 10 :: z ++ 13 :: 10 :: s.drop n := by
    have happend := List.take_append_drop n s
    rw [htake] at happend
    simpa using happend.symm
  have hfirst := firstEnd_head hx hz (s.drop n)
  rwa [← hsplit, ← hlength] at hfirst

/-- A response with a folded header and a second empty line. -/
theorem message_framing_folded : Answers HTTP_message
      (bytes "HTTP/1.1 200 OK\r\na: b\r\n c\r\n\r\n\r\n\r\n") (.accept 29) ∧
    FirstEnd emptyLine (bytes "HTTP/1.1 200 OK\r\na: b\r\n c\r\n\r\n\r\n\r\n") 29 := by
  have haccept : Answers HTTP_message
      (bytes "HTTP/1.1 200 OK\r\na: b\r\n c\r\n\r\n\r\n\r\n") (.accept 29) :=
    (answers_iff plain_message).2 (by decide +kernel)
  exact ⟨haccept, message_framing _ _ haccept⟩

/-! ### Responses -/

/-- **A header is read** with the end of its line, where the next line does not begin with a blank.
-/
theorem reads_headerLine {h : Header Byte} (hname : h.name ∈ Http.Text.token)
    (hvalue : h.value ∈ Http.Text.value) {y : List Byte} (hy : Unfolded y) :
    (recognizer octet (Glue [message_header, CRLF])).Reads (Http.Text.headerLine h) y := by
  have hnone (c : Byte) (z : List Byte) (h32 : c ≠ 32) (h9 : c ≠ 9) (h13 : c ≠ 13) :
      (star (recognizer octet LWS)).Reads [] (c :: z) := Reads.star_nil (LWS_reject h32 h9 h13)
  have hname' (z : List Byte) : (recognizer octet token).Reads h.name (58 :: z) :=
    reads_token hname (by decide)
  have hcolon (z : List Byte) : (recognizer octet (lit ':')).Reads (bytes ":") z := reads_lit rfl z
  have hheader : (recognizer octet message_header).Reads
      (h.name ++ ([] ++ (bytes ":" ++ (bytes " " ++ h.value)))) (bytes "\r\n" ++ y) := by
    rw [recognizer_messageHeader]
    exact (hname' _).seq ((hnone 58 _ (by decide) (by decide) (by decide)).seq ((hcolon _).seq
      ((reads_leadingSpace hvalue hy).seq (reads_fieldValue hvalue hy).opt)))
  have hend : (star (recognizer octet LWS)).Reads [] (bytes "\r\n" ++ y) := by
    obtain ⟨c, z, rfl, h32, h9⟩ := hy
    exact Reads.star_nil (LWS_reject_lineEnd h32 h9)
  have htext : Http.Text.headerLine h =
      (h.name ++ ([] ++ (bytes ":" ++ (bytes " " ++ h.value)))) ++ ([] ++ bytes "\r\n") := by
    have hsplit : bytes ": " = bytes ":" ++ bytes " " := rfl
    simp only [Http.Text.headerLine, hsplit, List.append_assoc, List.nil_append]
  rw [recognizer_headerLine, htext]
  exact hheader.seq (hend.seq reads_CRLF)

/-- **The headers of a message are read** with the empty line behind them. -/
theorem reads_headerBlock {l : List (Header Byte)}
    (hheaders : ∀ h ∈ l, h.name ∈ Http.Text.token ∧ h.value ∈ Http.Text.value) (y : List Byte) :
    headerBlock.Reads (l.flatMap Http.Text.headerLine ++ bytes "\r\n") y := by
  have hpieces : ∀ x ∈ l.map Http.Text.headerLine, x ≠ [] ∧ ∀ z, Unfolded z →
      (recognizer octet (Glue [message_header, CRLF])).Reads x z := by
    intro x hx
    obtain ⟨h, hh, rfl⟩ := List.mem_map.1 hx
    obtain ⟨hname, hvalue⟩ := hheaders h hh
    exact ⟨by simp [Http.Text.headerLine, bytes], fun z => reads_headerLine hname hvalue⟩
  have hstarts : ∀ x ∈ l.map Http.Text.headerLine, ∀ z, Unfolded (x ++ z) := by
    intro x hx z
    obtain ⟨h, hh, rfl⟩ := List.mem_map.1 hx
    simp only [Http.Text.headerLine, List.append_assoc]
    exact unfolded_token (hheaders h hh).1 _
  have hend : Unfolded (bytes "\r\n" ++ y) := ⟨13, _, rfl, by decide, by decide⟩
  have hstop : recognizer octet (Glue [message_header, CRLF]) (bytes "\r\n" ++ y) = .reject := by
    rw [recognizer_headerLine, recognizer_messageHeader, recognizer_tokenRule, recognizer_tokenChar]
    exact seq_of_reject (seq_of_reject (seq_of_reject (satisfy_reject (by decide))))
  have hlines := Reads.star_flatten hpieces hstarts hend hstop
  rw [← List.flatMap_def] at hlines
  exact hlines.seq reads_CRLF

/-- **A response is accepted** at its empty line, whatever follows, and asks for more until then. -/
theorem response_streamed {line : List Byte} {l : List (Header Byte)}
    (hline : line ∈ Http.Text.statusLine)
    (hheaders : ∀ h ∈ l, h.name ∈ Http.Text.token ∧ h.value ∈ Http.Text.value) :
    (∀ y, Answers HTTP_message (Http.Text.message line l ++ y)
      (.accept (Http.Text.message line l).length)) ∧
    ∀ s, s <+: Http.Text.message line l → s ≠ Http.Text.message line l →
      Answers HTTP_message s .incomplete := by
  have hversion (y : List Byte) : bytes "HTTP/" <+: Http.Text.message line l ++ y := by
    obtain ⟨d₁, -, d₂, -, k, -, phrase, -, rfl⟩ := Http.Text.mem_statusLine hline
    simp only [Http.Text.message, List.append_assoc]
    exact List.prefix_append _ _
  have hreads (y : List Byte) : recognizer octet HTTP_message (Http.Text.message line l ++ y) =
      .accept (Http.Text.message line l).length := by
    rw [message_apply, if_pos (hversion y), recognizer_response]
    exact (reads_statusLine hline _).seq (reads_headerBlock hheaders y)
  refine ⟨fun y => (answers_iff plain_message).2 (hreads y), fun s l' hne => ?_⟩
  rw [answers_iff plain_message]
  by_contra hanswer
  obtain ⟨t, ht⟩ := l'
  have hwhole := hreads []
  rw [List.append_nil, ← ht, final_recognizer plain_message s t hanswer] at hwhole
  have hle := le_length hwhole
  rw [List.length_append] at hle
  have hnil : t = [] := List.length_eq_zero_iff.1 (by omega)
  rw [hnil, List.append_nil] at ht
  exact hne ht

/-- The response `200 OK` with a header, and a beginning of it. -/
theorem response_streamed_ok :
    Answers HTTP_message (bytes "HTTP/1.1 200 OK\r\nHost: x y\r\n\r\nabc") (.accept 30) ∧
    Answers HTTP_message (bytes "HTTP/1.1 200 OK\r\nHo") .incomplete := by
  have hone : bytes "1" ∈ Http.Text.digits := ⟨by decide, List.all_eq_true.1 rfl⟩
  have hline : bytes "HTTP/1.1 200 OK\r\n" ∈ Http.Text.statusLine :=
    ⟨_, ⟨_, rfl, _, ⟨_, hone, _, ⟨_, rfl, _, hone, rfl⟩, rfl⟩, rfl⟩, _, ⟨_, rfl, _, ⟨bytes "200",
      ⟨rfl, List.all_eq_true.1 rfl⟩, _, ⟨_, rfl, _, ⟨bytes "OK", List.all_eq_true.1 rfl, _, rfl,
      rfl⟩, rfl⟩, rfl⟩, rfl⟩, rfl⟩
  have hname : bytes "Host" ∈ Http.Text.token := ⟨by decide, List.all_eq_true.1 rfl⟩
  have hvalue : bytes "x y" ∈ Http.Text.value := by
    have hall : (bytes "x y").all (fun c => decide (32 ≤ c ∧ c ≤ 126)) = true := rfl
    refine ⟨fun c hc => of_decide_eq_true (List.all_eq_true.1 hall c hc), fun c hc => ?_⟩
    obtain rfl : (120 : Byte) = c := Option.some.inj hc
    decide
  have hboth := response_streamed (l := [⟨bytes "Host", bytes "x y"⟩]) hline
    (by simpa using ⟨hname, hvalue⟩)
  exact ⟨hboth.1 (bytes "abc"), hboth.2 _ (by decide) (by decide)⟩

end Hittop
