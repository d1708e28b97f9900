/-
**The authority form of a target.**

The rule `Request_URI` tries an absolute URI before an authority.  A host name that begins with a
letter is a scheme as well, and the port behind the colon is an opaque part, so that the last
alternative is never reached for `host ":" port`.

Main definitions:

* `Hittop.Http.Text.hostName` — labels with dots between them;
* `Hittop.Http.Text.connect` — a request for a tunnel.

Main results:

* `Hittop.connect_scheme` — the host of such a request is recorded as the scheme of its target;
* `Hittop.authority_form_never` — and never as the host.
-/

import Hittop.Http.Methods

set_option relaxedAutoImplicit false
set_option autoImplicit false

namespace Hittop

open scoped Computability
open Meaning
open Http.Grammar
open Uri.Text (oneOf)

namespace Http.Text

/-- A letter and alphanumeric characters. -/
def label : Language Byte :=
  oneOf (fun c => Cctype.test .isalpha (octet c)) * (oneOf fun c => Cctype.test .isalnum (octet c))∗

/-- Labels with dots between them. -/
def hostName : Language Byte := label * ({bytes "."} * label)∗

/-- `"CONNECT" SP host ":" port SP "HTTP/1.1" CRLF CRLF` -/
def connect (host port : List Byte) : List Byte :=
  bytes "CONNECT " ++ host ++ bytes ":" ++ port ++ bytes " HTTP/1.1\r\n\r\n"

end Http.Text

open Http.Text (hostName)

/-! ### Host names are schemes -/

section Names

variable {h p : List Byte}

theorem schemeChar_of_isalpha {c : Byte} (hc : Cctype.test .isalpha (octet c) = true) :
    Uri.Text.schemeChar c = true := by
  rw [Uri.Text.schemeChar, isalnum_test, hc]
  rfl

theorem schemeChar_of_label (hh : h ∈ Http.Text.label) : ∀ c ∈ h, Uri.Text.schemeChar c = true := by
  obtain ⟨_, ⟨a, ha, rfl⟩, x, hx, rfl⟩ := hh
  intro c hc
  rcases List.mem_cons.1 hc with rfl | hc
  · exact schemeChar_of_isalpha ha
  · simp [Uri.Text.schemeChar, mem_kstar_oneOf.1 hx c hc]

/-- **A host name that begins with a letter** is a scheme. -/
theorem scheme_of_hostName (hh : h ∈ hostName) : h ∈ Uri.Text.scheme := by
  obtain ⟨_, ⟨_, ⟨a, ha, rfl⟩, x, hx, rfl⟩, y, ⟨labels, rfl, hlabels⟩, rfl⟩ := hh
  refine ⟨[a], ⟨a, ha, rfl⟩, x ++ labels.flatten, mem_kstar_oneOf.2 fun c hc => ?_, rfl⟩
  rcases List.mem_append.1 hc with hc | hc
  · exact schemeChar_of_label ⟨[a], ⟨a, ha, rfl⟩, x, hx, rfl⟩ c (List.mem_cons_of_mem _ hc)
  · obtain ⟨l, hl, hc⟩ := List.mem_flatten.1 hc
    obtain ⟨_, rfl, x, hx, rfl⟩ := hlabels l hl
    rcases List.mem_cons.1 hc with rfl | hc
    · decide
    · exact schemeChar_of_label hx c hc

/-- It begins with a letter. -/
theorem head_hostName (hh : h ∈ hostName) :
    ∃ a x, h = a :: x ∧ Cctype.test .isalpha (octet a) = true := by
  obtain ⟨_, ⟨_, ⟨a, ha, rfl⟩, x, -, rfl⟩, y, -, rfl⟩ := hh
  exact ⟨a, x ++ y, rfl, ha⟩

/-! ### The target -/

/-- **A host and a port are taken as an absolute URI**, with the host as its scheme. -/
theorem takes_requestURI_authority (hh : h ∈ hostName) (hp : p ∈ Http.Text.digits) (z : List Byte) :
    Takes (recordRequestURI octet alt) (h ++ (bytes ":" ++ p)) (32 :: z) {}
      { scheme := some h, path_segments := some [] } := by
  obtain ⟨a, x, rfl, ha⟩ := head_hostName hh
  obtain ⟨d, p, rfl⟩ := List.exists_cons_of_ne_nil hp.1
  have hletter : ∀ b : Byte, Cctype.test .isalpha (octet b) = false → a ≠ b := by
    rintro b hb rfl
    rw [hb] at ha
    cases ha
  have huric : ∀ b ∈ d :: p, Uri.Text.urlChar ";/?:@&=+$," b = true := by
    intro b hb
    rw [Uri.Text.urlChar, isalnum_test, hp.2 b hb, Bool.or_true]
    rfl
  have hd : d ≠ 47 := by
    rintro rfl
    exact absurd (hp.2 47 List.mem_cons_self) (by decide)
  have habsolute := takes_absoluteURI_opaque (scheme_of_hostName hh) hd huric
    (Stops.cons (c := 32) rfl (by decide) z) (Uri.mutablePathSegments {})
  have hstar : Refuses (unrecorded octet Http.Grammar.Star)
      (a :: x ++ (bytes ":" ++ d :: p) ++ 32 :: z)
      (Uri.mutablePathSegments {}) (Uri.mutablePathSegments {}) := by
    refine Refuses.lift ?_
    rw [Http.Grammar.Star, recognizer_forwardRef _ _ rfl]
    exact lit_reject (fun h42 => hletter 42 (by decide) (octet_injective (b := 42) h42)) _
  have hhier : Refuses ((recordHierPart octet alt).seq (recordFragment octet alt))
      (a :: x ++ (bytes ":" ++ d :: p) ++ 32 :: z) {} (Uri.mutablePathSegments {}) :=
    (refuses_hierPart (hletter 47 (by decide)) {}).seq_left
  exact Takes.alt_right hhier (Takes.alt_right hstar habsolute.alt_left)

/-! ### The request -/

theorem recordVersion_uri (d₁ d₂ : List Byte) (st : RequestParse Byte) :
    (recordMinorVersion octet d₂ (recordMajorVersion octet d₁ st)).request.uri =
      st.request.uri := by
  unfold recordMinorVersion recordMajorVersion
  split <;> split <;> rfl

/-- **A request for a tunnel is accepted**, with its host as the scheme of its target and with
neither a host nor a port. -/
theorem connect_scheme (hh : h ∈ hostName) (hp : p ∈ Http.Text.digits) :
    ∃ r, ParsesWhole (Http.Text.connect h p) r ∧ r.uri.scheme = some h ∧ r.uri.host = none ∧
      r.uri.port = none := by
  have hmethod (z : List Byte) := takes_method_fixed (m := bytes "CONNECT") (by decide) z {}
  have htarget (z : List Byte) : Takes (recordTarget octet) (h ++ (bytes ":" ++ p)) (32 :: z)
      (recordHttpMethod octet (bytes "CONNECT") {}) _ :=
    takes_target (takes_requestURI_authority hh hp z)
  have hone : bytes "1" ∈ Http.Text.digits := ⟨by decide, List.all_eq_true.1 rfl⟩
  have hrequest := takes_request hmethod htarget hone hone (List.forall_mem_nil _) []
  have htext : Http.Text.request (bytes "CONNECT") (h ++ (bytes ":" ++ p)) (bytes "1")
      (bytes "1") [] = Http.Text.connect h p := by
    simp [Http.Text.request, Http.Text.requestLine, Http.Text.connect, bytes]
  rw [htext] at hrequest
  refine ⟨_, parsesWhole_iff.2 ⟨_, hrequest⟩, ?_⟩
  simp only [List.foldl_nil, recordVersion_uri]
  exact ⟨rfl, rfl, rfl⟩

/-- **The authority form is never decoded as an authority**, whatever the host and the port are. -/
theorem authority_form_never (hh : h ∈ hostName) (hp : p ∈ Http.Text.digits) :
    ¬ ∃ r, ParsesWhole (Http.Text.connect h p) r ∧ r.uri.host = some h ∧
      r.uri.port = some (decimal (p.map octet)) ∧ r.uri.scheme = none := by
  rintro ⟨r, hr, -, -, hnone⟩
  obtain ⟨r', hr', hscheme, -, -⟩ := connect_scheme hh hp
  rw [hr.unique hr', hscheme] at hnone
  cases hnone

theorem label_mem_hostName {a : Byte} {x : List Byte} (ha : Cctype.test .isalpha (octet a) = true)
    (hx : ∀ c ∈ x, Cctype.test .isalnum (octet c) = true) : a :: x ∈ hostName := by
  have hlabel : a :: x ∈ Http.Text.label := ⟨[a], ⟨a, ha, rfl⟩, x, mem_kstar_oneOf.2 hx, rfl⟩
  have happend := Language.append_mem_mul hlabel
    (Language.nil_mem_kstar ({bytes "."} * Http.Text.label))
  rwa [List.append_nil] at happend

theorem authority_form_never_localhost :
    ¬ ∃ r, ParsesWhole (Http.Text.connect (bytes "localhost") (bytes "8080")) r ∧
      r.uri.host = some (bytes "localhost") ∧
      r.uri.port = some (decimal ((bytes "8080").map octet)) ∧ r.uri.scheme = none :=
  authority_form_never (label_mem_hostName (by decide) (List.all_eq_true.1 rfl))
    ⟨by decide, List.all_eq_true.1 rfl⟩

/-- The target `a:80` has the scheme `a` and no host. -/
theorem authority_form_scheme :
    ¬ ∃ r, ParsesWhole (bytes "CONNECT a:80 HTTP/1.1\r\n\r\n") r ∧ r.uri.host = some (bytes "a") ∧
      r.uri.port = some 80 ∧ r.uri.scheme = none := by
  rintro ⟨r, hr, -, -, hnone⟩
  obtain ⟨r', hr', hscheme, -, -⟩ := connect_scheme (h := bytes "a") (p := bytes "80")
    (label_mem_hostName (by decide) (List.all_eq_true.1 rfl)) ⟨by decide, List.all_eq_true.1 rfl⟩
  have hsame : r = r' := ParsesWhole.unique hr hr'
  rw [hsame, hscheme] at hnone
  cases hnone

end Names

end Hittop
