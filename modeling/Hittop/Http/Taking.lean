/-
**What `ParseRequest` does with the text of a request.**

A request text is put together from a method, a target, a version and headers.  Where the method and
the target are taken, the text is, and what is recorded is known.

Main definitions:

* `Hittop.Http.Text.token`, `Hittop.Http.Text.digits`, `Hittop.Http.Text.value` — the languages of
  the parts;
* `Hittop.Http.Text.request` — a request with these parts;
* `Hittop.ParsesWhole` — `ParseRequest` accepts the whole of a text.

Main results:

* `Hittop.takes_requestLine`, `Hittop.takes_headerLines` — the lines of a request;
* `Hittop.takes_request` — all of it.
-/

import Hittop.Http.Reading
import Hittop.Uri.Port
import Hittop.Uri.Taking

set_option relaxedAutoImplicit false
set_option autoImplicit false

namespace Hittop

open Meaning
open Http.Grammar
open Uri.Grammar (lit)

/-! ### Texts -/

namespace Http.Text

/-- A character of a token: neither a control character nor a separator. -/
def tokenChar (c : Byte) : Bool :=
  !Cctype.test .iscntrl (octet c) && !decide (c ∈ bytes "()<>@,;:\\\"/[]?=\x7b\x7d \t")

def token : Language Byte := {x | x ≠ [] ∧ ∀ c ∈ x, tokenChar c = true}

def digits : Language Byte := {x | x ≠ [] ∧ ∀ c ∈ x, Cctype.test .isdigit (octet c) = true}

/-- The value of a header: printable characters, of which the first is not a space. -/
def value : Language Byte := {x | (∀ c ∈ x, 32 ≤ c ∧ c ≤ 126) ∧ ∀ c ∈ x.head?, c ≠ 32}

/-- `m SP target SP "HTTP/" major "." minor CRLF` -/
def requestLine (m target major minor : List Byte) : List Byte :=
  m ++ bytes " " ++ target ++ bytes " HTTP/" ++ major ++ bytes "." ++ minor ++ bytes "\r\n"

/-- `name ":" SP value CRLF` -/
def headerLine (h : Header Byte) : List Byte := h.name ++ bytes ": " ++ h.value ++ bytes "\r\n"

/-- A request line, headers and an empty line. -/
def request (m target major minor : List Byte) (headers : List (Header Byte)) : List Byte :=
  requestLine m target major minor ++ headers.flatMap headerLine ++ bytes "\r\n"

end Http.Text

/-- `ParseRequest` on a fresh request accepts the whole of the text and leaves the request `r`. -/
def ParsesWhole (s : List Byte) (r : Request Byte) : Prop :=
  ∃ result name, Visits octets (requestVisitors octet) .request Http.Grammar.Request s {} result
    ⟨r, name⟩ ∧ result.verdict = .accept s.length

theorem parsesWhole_iff {s : List Byte} {r : Request Byte} :
    ParsesWhole s r ↔ ∃ name, Takes (recordRequest octet) s [] {} ⟨r, name⟩ := by
  have hmeaning := meaning_request octet_inLookup
  have hiff (name : List Byte) : (∃ result, Visits octets (requestVisitors octet) .request
      Http.Grammar.Request s {} result ⟨r, name⟩ ∧ result.verdict = .accept s.length) ↔
      Takes (recordRequest octet) s [] {} ⟨r, name⟩ := by
    rw [exists_visits_iff, Takes, List.append_nil, ← hmeaning]
    rfl
  constructor
  · rintro ⟨result, name, hvisits, hv⟩
    exact ⟨name, (hiff name).1 ⟨result, hvisits, hv⟩⟩
  · rintro ⟨name, htakes⟩
    obtain ⟨result, hvisits, hv⟩ := (hiff name).2 htakes
    exact ⟨result, name, hvisits, hv⟩

/-- A text is parsed in one way only. -/
theorem ParsesWhole.unique {s : List Byte} {r r' : Request Byte} (h : ParsesWhole s r)
    (h' : ParsesWhole s r') : r = r' := by
  obtain ⟨name, htakes⟩ := parsesWhole_iff.1 h
  obtain ⟨name', htakes'⟩ := parsesWhole_iff.1 h'
  rw [Takes, htakes] at htakes'
  cases htakes'
  rfl

/-! ### The request line -/

section Line

variable {x y : List Byte}

theorem recognizer_tokenChar : recognizer octet Hittop.tokenChar =
    .satisfy Http.Text.tokenChar := by
  refine recognizer_octets rfl fun c => ?_
  have hseparators : has separators (octet c) =
      decide (c ∈ bytes "()<>@,;:\\\"/[]?=\x7b\x7d \t") :=
    has_literals "()<>@,;:\\\"/[]?=\x7b\x7d \t" rfl rfl c
  rw [Hittop.tokenChar, has_unless, has_pair, hseparators, Bool.not_or]
  exact Bool.and_true _

theorem reads_token (hx : x ∈ Http.Text.token) {c : Byte} (hc : Http.Text.tokenChar c = false) :
    (recognizer octet Http.Grammar.token).Reads x (c :: y) := by
  rw [recognizer_tokenRule, recognizer_tokenChar]
  exact Recognizer.Reads.some_satisfy hx.1 hx.2 (satisfy_reject hc)

theorem reads_digits {m : Name} (hm : m.settled = true) (htype : m.type = .atLeast 1 DIGIT)
    (hx : x ∈ Http.Text.digits) {c : Byte} (hc : Cctype.test .isdigit (octet c) = false) :
    (recognizer octet (.forwardRef m)).Reads x (c :: y) := by
  rw [recognizer_forwardRef _ _ hm, htype, recognizer_atLeast_one, DIGIT, recognizer_charFilter]
  exact Recognizer.Reads.some_satisfy hx.1 hx.2 (satisfy_reject hc)

theorem reads_CRLF : (recognizer octet CRLF).Reads (bytes "\r\n") y := by
  rw [recognizer_CRLF]
  exact Recognizer.Reads.seq (x := [13]) (y := [10]) (reads_lit rfl _) (reads_lit rfl _)

variable {m t d₁ d₂ : List Byte} {st st₁ st₂ : RequestParse Byte}

/-- **A version** is taken. -/
theorem takes_version (h₁ : d₁ ∈ Http.Text.digits) (h₂ : d₂ ∈ Http.Text.digits) {c : Byte}
    (hc : Cctype.test .isdigit (octet c) = false) :
    Takes (recordVersion octet) (bytes "HTTP/" ++ (d₁ ++ (bytes "." ++ d₂))) (c :: y) st
      (recordMinorVersion octet d₂ (recordMajorVersion octet d₁ st)) := by
  have hslash : (recognizer octet HTTP_slash).Reads (bytes "HTTP/")
      ((d₁ ++ (bytes "." ++ d₂)) ++ c :: y) := Recognizer.Reads.text octet (bytes "HTTP/") _
  have hmajor : (recognizer octet HTTP_major_version).Reads d₁ ((bytes "." ++ d₂) ++ c :: y) :=
    reads_digits rfl rfl h₁ (c := 46) (by decide)
  have hminor : (recognizer octet HTTP_minor_version).Reads d₂ (c :: y) :=
    reads_digits rfl rfl h₂ hc
  exact (Takes.lift hslash).seq ((Takes.record hmajor).seq
    ((Takes.lift (reads_lit rfl _)).seq (Takes.record hminor)))

/-- **The request line** is taken where its method and its target are. -/
theorem takes_requestLine (hm : ∀ z, Takes (recordMethod octet) m (32 :: z) st st₁)
    (ht : ∀ z, Takes (recordTarget octet) t (32 :: z) st₁ st₂)
    (h₁ : d₁ ∈ Http.Text.digits) (h₂ : d₂ ∈ Http.Text.digits) (y : List Byte) :
    Takes (recordRequestLine octet) (Http.Text.requestLine m t d₁ d₂) y st
      (recordMinorVersion octet d₂ (recordMajorVersion octet d₁ st₂)) := by
  have hspace (z : List Byte) (st : RequestParse Byte) :
      Takes (skipped octet SP) (bytes " ") z st st := Takes.lift (reads_lit rfl z)
  have hversion : Takes (recordVersion octet) (bytes "HTTP/" ++ (d₁ ++ (bytes "." ++ d₂)))
      (bytes "\r\n" ++ y) st₂ _ := takes_version h₁ h₂ (c := 13) (by decide)
  have hend : Takes (skipped octet CRLF) (bytes "\r\n") y
      (recordMinorVersion octet d₂ (recordMajorVersion octet d₁ st₂)) _ := Takes.lift reads_CRLF
  have htext : Http.Text.requestLine m t d₁ d₂ = m ++ (bytes " " ++ (t ++ (bytes " " ++
      ((bytes "HTTP/" ++ (d₁ ++ (bytes "." ++ d₂))) ++ bytes "\r\n")))) := by
    have hsplit : bytes " HTTP/" = bytes " " ++ bytes "HTTP/" := rfl
    simp only [Http.Text.requestLine, hsplit, List.append_assoc]
  rw [htext]
  exact (hm _).seq ((hspace _ _).seq ((ht _).seq ((hspace _ _).seq (hversion.seq hend))))

end Line

/-! ### Targets -/

/-- **A target** is taken where it is as a `Request_URI`. -/
theorem takes_target {t y : List Byte} {st : RequestParse Byte} {u : Uri Byte}
    (h : Takes (recordRequestURI octet alt) t y st.request.uri u) :
    Takes (recordTarget octet) t y st { st with request.uri := u.assign t } :=
  Takes.finish (h.through RequestParse.mutableUri) rfl

/-- A path, with a query and a fragment if they are there, is a target. -/
theorem takes_target_path {segments : List (List Byte)} {q f : Option (List Byte)}
    (hne : segments ≠ []) (hsegments : ∀ x ∈ segments, x ∈ Uri.Text.segment)
    (hpath : ¬ bytes "//" <+: Uri.Text.path segments) (hq : ∀ x ∈ q, x ∈ Uri.Text.urics)
    (hf : ∀ x ∈ f, x ∈ Uri.Text.urics) (z : List Byte) (st : RequestParse Byte) :
    Takes (recordTarget octet) (Uri.Text.reference segments q f) (32 :: z) st
      { st with
        request.uri := (st.request.uri.assignReference segments q f).assign
          (Uri.Text.reference segments q f) } :=
  takes_target (takes_requestURI_path hne hsegments hpath hq hf (.cons rfl (by decide) z) _)

/-! ### White space -/

section Blanks

variable {x y : List Byte} {c : Byte}

theorem blankChar_reject (h32 : c ≠ 32) (h9 : c ≠ 9) :
    recognizer octet blankChar (c :: y) = .reject := by
  rw [blankChar, recognizer_choice, Recognizer.alt_of_reject]
  · exact lit_reject (fun h => h9 (octet_injective (b := 9) h)) y
  · exact lit_reject (fun h => h32 (octet_injective (b := 32) h)) y

/-- White space begins with a blank or with the end of a line. -/
theorem LWS_reject (h32 : c ≠ 32) (h9 : c ≠ 9) (h13 : c ≠ 13) :
    recognizer octet LWS (c :: y) = .reject := by
  have hend : recognizer octet CRLF (c :: y) = .reject := by
    rw [recognizer_CRLF]
    exact Recognizer.seq_of_reject (lit_reject (fun h => h13 (octet_injective (b := 13) h)) y)
  have hnil : (Recognizer.opt (recognizer octet CRLF)).Reads [] (c :: y) :=
    Recognizer.Reads.opt_nil hend
  have hblank := Recognizer.seq_of_reject (g := .star (recognizer octet blankChar))
    (blankChar_reject (y := y) h32 h9)
  rw [recognizer_LWS]
  exact (hnil.seq_apply).trans (by rw [hblank]; rfl)

/-- The end of a line that no blank follows is not white space. -/
theorem LWS_reject_lineEnd (h32 : c ≠ 32) (h9 : c ≠ 9) :
    recognizer octet LWS (bytes "\r\n" ++ c :: y) = .reject := by
  have hend : (Recognizer.opt (recognizer octet CRLF)).Reads (bytes "\r\n") (c :: y) :=
    reads_CRLF.opt
  have hblank := Recognizer.seq_of_reject (g := .star (recognizer octet blankChar))
    (blankChar_reject (y := y) h32 h9)
  rw [recognizer_LWS]
  exact (hend.seq_apply).trans (by rw [hblank]; rfl)

/-- A run of spaces is white space. -/
theorem reads_spaces (hx : ∀ c ∈ x, c = 32) (h32 : c ≠ 32) (h9 : c ≠ 9) :
    (recognizer octet LWS).Reads (bytes " " ++ x) (c :: y) := by
  have hblank : recognizer octet blankChar =
      .satisfy fun c => decide (c = 32) || decide (c = 9) := by
    refine recognizer_octets rfl fun c => ?_
    have hlits : has blankChar (octet c) = decide (c ∈ bytes " \t") :=
      has_literals " \t" rfl rfl c
    rw [hlits, ← Bool.decide_or]
    exact decide_eq_decide.2 (by simp [bytes])
  have hend : (Recognizer.opt (recognizer octet CRLF)).Reads [] (bytes " " ++ x ++ c :: y) := by
    refine Recognizer.Reads.opt_nil ?_
    rw [recognizer_CRLF]
    exact Recognizer.seq_of_reject (lit_reject (by decide) _)
  have hstop : Recognizer.satisfy (fun c : Byte => decide (c = 32) || decide (c = 9)) (c :: y) =
      .reject := by simp [h32, h9]
  rw [recognizer_LWS, hblank]
  refine Recognizer.Reads.seq (x := []) hend (Recognizer.Reads.seq (x := [32])
    (Recognizer.Reads.satisfy rfl) (Recognizer.Reads.star_satisfy (fun a ha => ?_) hstop))
  rw [hx a ha]
  rfl

end Blanks

/-! ### Headers -/

section Headers

variable {x y : List Byte} {c : Byte}

theorem printable_ne {a b : Byte} (h : 32 ≤ a ∧ a ≤ 126) (hb : b < 32) : a ≠ b := by
  rintro rfl
  exact absurd (UInt8.lt_of_lt_of_le hb h.1) (UInt8.lt_irrefl _)

theorem textChar_printable (h : 32 ≤ c ∧ c ≤ 126) : has textChar (octet c) = true := by
  have hcontrol : Cctype.test .iscntrl (octet c) = false := by
    refine Bool.eq_false_iff.2 fun hcontrol => ?_
    have hlow := UInt8.le_iff_toNat_le.1 h.1
    have hhigh := UInt8.le_iff_toNat_le.1 h.2
    rw [Cctype.iscntrl_iff, octet] at hcontrol
    simp at hlow hhigh
    omega
  rw [textChar, has_unless]
  exact congrArg (fun b => !b && true) hcontrol

theorem TEXT_reject_lineEnd (h32 : c ≠ 32) (h9 : c ≠ 9) :
    recognizer octet TEXT (bytes "\r\n" ++ c :: y) = .reject := by
  rw [recognizer_TEXT, Recognizer.alt_of_reject (LWS_reject_lineEnd h32 h9),
    recognizer_class (g := textChar) rfl]
  exact satisfy_reject (by decide)

/-- A text is a run of spaces and what comes after it. -/
theorem exists_leading_spaces (x : List Byte) : ∃ spaces rest, x = spaces ++ rest ∧
    (∀ c ∈ spaces, c = 32) ∧ ∀ c ∈ rest.head?, c ≠ 32 := by
  refine ⟨x.takeWhile (· = 32), x.dropWhile (· = 32), List.takeWhile_append_dropWhile.symm,
    fun c hc => by simpa using List.mem_takeWhile_imp hc, fun c hc => ?_⟩
  have hstop := List.head?_dropWhile_not (· = 32) x
  rw [hc] at hstop
  simpa using hstop

/-- Printable characters are text, up to the end of the line. -/
theorem reads_printable (hx : ∀ c ∈ x, 32 ≤ c ∧ c ≤ 126) (h32 : c ≠ 32) (h9 : c ≠ 9) :
    (Recognizer.star (recognizer octet TEXT)).Reads x (bytes "\r\n" ++ c :: y) := by
  -- on the length, because a run of spaces is read in one turn of the loop
  induction hn : x.length using Nat.strongRecOn generalizing x with
  | ind n ih =>
      cases x with
      | nil => exact Recognizer.Reads.star_nil (TEXT_reject_lineEnd h32 h9)
      | cons a x =>
          have htail : ∀ c ∈ x, 32 ≤ c ∧ c ≤ 126 := fun c hc => hx c (List.mem_cons_of_mem _ hc)
          by_cases ha : a = 32
          · -- a run of spaces is one piece of white space
            subst ha
            obtain ⟨spaces, rest, rfl, hspaces, hrest⟩ := exists_leading_spaces x
            have hread : (recognizer octet TEXT).Reads (bytes " " ++ spaces)
                (rest ++ (bytes "\r\n" ++ c :: y)) := by
              rw [recognizer_TEXT]
              refine Recognizer.Reads.alt_left ?_
              cases rest with
              | nil => exact reads_spaces hspaces (by decide) (by decide)
              | cons b rest =>
                  have hb : 32 ≤ b ∧ b ≤ 126 := htail b (by simp)
                  exact reads_spaces hspaces (hrest b rfl) (printable_ne hb (by decide))
            have hlength : rest.length < n := by
              rw [← hn, List.length_cons, List.length_append]
              omega
            exact Recognizer.Reads.star_cons (x := bytes " " ++ spaces) (by simp [bytes]) hread
              (ih _ hlength (fun c hc => htail c (List.mem_append_right _ hc)) rfl)
          · have ha' := hx a List.mem_cons_self
            have hread : (recognizer octet TEXT).Reads [a] (x ++ (bytes "\r\n" ++ c :: y)) := by
              rw [recognizer_TEXT, recognizer_class (g := textChar) rfl]
              exact Recognizer.Reads.alt_right
                (LWS_reject ha (printable_ne ha' (by decide)) (printable_ne ha' (by decide)))
                (Recognizer.Reads.satisfy (textChar_printable ha'))
            exact Recognizer.Reads.star_cons (x := [a]) (by simp) hread
              (ih x.length (by rw [← hn, List.length_cons]; omega) htail rfl)

/-- What follows a header: something else than a blank. -/
def Unfolded (y : List Byte) : Prop := ∃ c z, y = c :: z ∧ c ≠ 32 ∧ c ≠ 9

theorem reads_fieldValue (hx : x ∈ Http.Text.value) (hy : Unfolded y) :
    (recognizer octet field_value).Reads x (bytes "\r\n" ++ y) := by
  obtain ⟨c, z, rfl, h32, h9⟩ := hy
  rw [recognizer_fieldValue]
  exact (reads_printable hx.1 h32 h9).star_star (TEXT_reject_lineEnd h32 h9)

/-- The space before a value is all of the white space there. -/
theorem reads_leadingSpace (hx : x ∈ Http.Text.value) (hy : Unfolded y) :
    (Recognizer.star (recognizer octet LWS)).Reads (bytes " ") (x ++ (bytes "\r\n" ++ y)) := by
  obtain ⟨c, z, rfl, h32, h9⟩ := hy
  have hspace : ∀ b w, b ≠ 32 → b ≠ 9 → (recognizer octet LWS).Reads (bytes " ") (b :: w) :=
    fun b w hb hb' => reads_spaces (x := []) (by simp) hb hb'
  cases x with
  | nil =>
      exact Recognizer.Reads.star_cons (y := []) (by decide) (hspace 13 _ (by decide) (by decide))
        (Recognizer.Reads.star_nil (LWS_reject_lineEnd h32 h9))
  | cons b x =>
      have hb := hx.1 b List.mem_cons_self
      have hb32 : b ≠ 32 := hx.2 b rfl
      have hb9 : b ≠ 9 := printable_ne hb (by decide)
      exact Recognizer.Reads.star_cons (y := []) (by decide) (hspace b _ hb32 hb9)
        (Recognizer.Reads.star_nil (LWS_reject hb32 hb9 (printable_ne hb (by decide))))

/-- What is recorded for a header. -/
def recordHeaderOf (h : Header Byte) (st : RequestParse Byte) : RequestParse Byte :=
  RequestParse.emplaceHeader h.value { st with name := h.name }

/-- **A header** is taken with the end of its line. -/
theorem takes_headerLine {h : Header Byte} (hname : h.name ∈ Http.Text.token)
    (hvalue : h.value ∈ Http.Text.value) (hy : Unfolded y) (st : RequestParse Byte) :
    Takes (recordHeaderLine octet) (Http.Text.headerLine h) y st (recordHeaderOf h st) := by
  have hreads (z : List Byte) : (recognizer octet field_name).Reads h.name (58 :: z) := by
    rw [recognizer_fieldName]
    exact reads_token hname (by decide)
  have hnone (c : Byte) (z : List Byte) (h32 : c ≠ 32) (h9 : c ≠ 9) (h13 : c ≠ 13)
      (st : RequestParse Byte) : Takes (skipped octet (.repeat_ LWS)) [] (c :: z) st st :=
    Takes.lift (Recognizer.Reads.star_nil (LWS_reject h32 h9 h13))
  have hvalue' : Takes (record (recognizer octet field_value) RequestParse.emplaceHeader).opt
      h.value (bytes "\r\n" ++ y) { st with name := h.name } (recordHeaderOf h st) :=
    (Takes.record (reads_fieldValue hvalue hy)).opt
  have hspace : Takes (skipped octet (.repeat_ LWS)) (bytes " ") (h.value ++ (bytes "\r\n" ++ y))
      { st with name := h.name } { st with name := h.name } :=
    Takes.lift (reads_leadingSpace hvalue hy)
  have hcolon : Takes (skipped octet (lit ':')) (bytes ":") ((bytes " " ++ h.value) ++
      (bytes "\r\n" ++ y)) { st with name := h.name } { st with name := h.name } :=
    Takes.lift (reads_lit rfl _)
  have hrest := (hnone 58 _ (by decide) (by decide) (by decide) _).nil_seq
    (hcolon.seq (hspace.seq hvalue')) rfl
  have hname' (z : List Byte) : Takes (record (recognizer octet field_name)
      fun text st => { st with name := text }) h.name (58 :: z) { st with name := [] }
      { st with name := h.name } := Takes.record (hreads z)
  have hheader : Takes (recordHeader octet) (h.name ++ (bytes ":" ++ (bytes " " ++ h.value)))
      (bytes "\r\n" ++ y) st (recordHeaderOf h st) := ((hname' _).seq hrest).after
  -- the blanks that may follow a value begin no further line, so that none are skipped here
  have hend : Takes (skipped octet (.repeat_ LWS)) [] (bytes "\r\n" ++ y) (recordHeaderOf h st)
      (recordHeaderOf h st) := by
    obtain ⟨c, z, rfl, h32, h9⟩ := hy
    exact Takes.lift (Recognizer.Reads.star_nil (LWS_reject_lineEnd h32 h9))
  have hcrlf : Takes (skipped octet CRLF) (bytes "\r\n") y (recordHeaderOf h st)
      (recordHeaderOf h st) := Takes.lift reads_CRLF
  have htext : Http.Text.headerLine h =
      (h.name ++ (bytes ":" ++ (bytes " " ++ h.value))) ++ bytes "\r\n" := by
    have hsplit : bytes ": " = bytes ":" ++ bytes " " := rfl
    simp only [Http.Text.headerLine, hsplit, List.append_assoc]
  rw [htext]
  exact hheader.seq (hend.nil_seq hcrlf rfl)

/-- A token does not begin with a blank. -/
theorem unfolded_token (hx : x ∈ Http.Text.token) (y : List Byte) : Unfolded (x ++ y) := by
  obtain ⟨hne, hall⟩ := hx
  obtain ⟨b, x, rfl⟩ := List.exists_cons_of_ne_nil hne
  refine ⟨b, x ++ y, rfl, ?_, ?_⟩
  all_goals
    rintro rfl
    exact absurd (hall _ List.mem_cons_self) (by decide)

/-- At an empty line there is no header. -/
theorem refuses_headerLine (st : RequestParse Byte) :
    Refuses (recordHeaderLine octet) (bytes "\r\n" ++ y) st { st with name := [] } := by
  have hname : recognizer octet field_name (bytes "\r\n" ++ y) = .reject := by
    rw [recognizer_fieldName, recognizer_tokenRule, recognizer_tokenChar]
    exact Recognizer.seq_of_reject (satisfy_reject (by decide))
  exact ((Refuses.record hname).seq_left.after).seq_left

/-- **Headers** are taken one after the other. -/
theorem takes_headerLines {headers : List (Header Byte)}
    (hheaders : ∀ h ∈ headers, h.name ∈ Http.Text.token ∧ h.value ∈ Http.Text.value)
    (y : List Byte) (st : RequestParse Byte) :
    Takes (recordHeaderLine octet).loop (headers.flatMap Http.Text.headerLine) (bytes "\r\n" ++ y)
      st { headers.foldl (fun st h => recordHeaderOf h st) st with name := [] } := by
  have hpieces : ∀ h ∈ headers, Http.Text.headerLine h ≠ [] ∧ ∀ z st, Unfolded z →
      Takes (recordHeaderLine octet) (Http.Text.headerLine h) z st (recordHeaderOf h st) := by
    intro h hh
    obtain ⟨hname, hvalue⟩ := hheaders h hh
    exact ⟨by simp [Http.Text.headerLine, bytes], fun z st hz =>
      takes_headerLine hname hvalue hz st⟩
  have hstarts : ∀ h ∈ headers, ∀ z, Unfolded (Http.Text.headerLine h ++ z) := by
    intro h hh z
    simp only [Http.Text.headerLine, List.append_assoc]
    exact unfolded_token (hheaders h hh).1 _
  have hend : Unfolded (bytes "\r\n" ++ y) := ⟨13, _, rfl, by decide, by decide⟩
  exact Takes.loop_flatten (silent_headerLine octet).bounded hpieces hstarts hend refuses_headerLine

theorem foldl_recordHeaderOf (headers : List (Header Byte)) (st : RequestParse Byte) :
    (headers.foldl (fun st h => recordHeaderOf h st) st).request =
      { st.request with headers := st.request.headers ++ headers } := by
  induction headers generalizing st with
  | nil => rw [List.foldl_nil, List.append_nil]
  | cons h headers ih =>
      rw [List.foldl_cons, ih]
      simp [recordHeaderOf, RequestParse.emplaceHeader]

/-- **A request** is taken where its method and its target are. -/
theorem takes_request {m t d₁ d₂ : List Byte} {headers : List (Header Byte)}
    {st st₁ st₂ : RequestParse Byte} (hm : ∀ z, Takes (recordMethod octet) m (32 :: z) st st₁)
    (ht : ∀ z, Takes (recordTarget octet) t (32 :: z) st₁ st₂)
    (h₁ : d₁ ∈ Http.Text.digits) (h₂ : d₂ ∈ Http.Text.digits)
    (hheaders : ∀ h ∈ headers, h.name ∈ Http.Text.token ∧ h.value ∈ Http.Text.value)
    (y : List Byte) :
    Takes (recordRequest octet) (Http.Text.request m t d₁ d₂ headers) y st
      { headers.foldl (fun st h => recordHeaderOf h st)
          (recordMinorVersion octet d₂ (recordMajorVersion octet d₁ st₂)) with name := [] } := by
  have hend : Takes (skipped octet CRLF) (bytes "\r\n") y
      { headers.foldl (fun st h => recordHeaderOf h st)
          (recordMinorVersion octet d₂ (recordMajorVersion octet d₁ st₂)) with name := [] } _ :=
    Takes.lift reads_CRLF
  rw [Http.Text.request, List.append_assoc]
  exact (takes_requestLine hm ht h₁ h₂ _).seq ((takes_headerLines hheaders y _).seq hend)

end Headers

end Hittop
