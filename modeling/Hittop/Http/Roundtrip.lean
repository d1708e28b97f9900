/-
**A request text is recorded as what it was made of.**

Main definitions:

* `Hittop.Request.ofParts` — the request with a method, a target that is a path, a version and
  headers.

Main results:

* `Hittop.integerParse_digits` — up to nine digits are read as their value;
* `Hittop.request_roundtrip` — the text of a request is accepted as a whole, and its parts are
  recorded.
-/

import Hittop.Http.Methods

set_option relaxedAutoImplicit false
set_option autoImplicit false

namespace Hittop

open Meaning
open Http.Grammar
open Http.Text (fixedMethods methodNames)

/-- The request with these parts. -/
def Request.ofParts (e : HttpMethod) (segments : List (List Byte)) (q f : Option (List Byte))
    (d₁ d₂ : List Byte) (headers : List (Header Byte)) : Request Byte where
  method := .http e
  uri := {
    uri := some (Uri.Text.reference segments q f)
    path := some (Uri.Text.path segments)
    query := q
    fragment := f
    path_segments := some segments }
  version := ⟨decimal (d₁.map octet), decimal (d₂.map octet)⟩
  headers := headers

/-! ### The numbers of a version -/

section Version

variable {d : List Byte}

theorem wrapSigned_of_le {n : ℤ} (h₀ : 0 ≤ n) (h : n ≤ intMax) : wrapSigned intMax n = n := by
  unfold wrapSigned intMax at *
  omega

/-- The loop goes on from a value as the digits do, while there are no more than nine of them. -/
theorem integerParseLoop_digits {ds : List ℤ} (hds : ∀ c ∈ ds, Cctype.test .isdigit c = true)
    (value : ℕ) (hbound : (value + 1) * 10 ^ ds.length ≤ 10 ^ 9) (first : Bool) :
    integerParseLoop intMax first 1 value ds = some (decimalFrom value ds : ℤ) := by
  induction ds generalizing value first with
  | nil =>
      rw [List.length_nil, Nat.pow_zero, Nat.mul_one] at hbound
      have hmax : (value : ℤ) ≤ intMax := by
        unfold intMax
        omega
      rw [integerParseLoop, Int.mul_one, wrapSigned_of_le (Int.natCast_nonneg value) hmax]
      rfl
  | cons c ds ih =>
      obtain ⟨hlow, hhigh⟩ := Cctype.isdigit_iff.1 (hds c List.mem_cons_self)
      rw [List.length_cons, Nat.pow_succ] at hbound
      have hten : (value + 1) * 10 * 10 ^ ds.length ≤ 10 ^ 9 := by
        rw [Nat.mul_assoc, Nat.mul_comm 10]
        exact hbound
      have hvalue : (value + 1) * 10 ≤ 10 ^ 9 :=
        Nat.le_trans (Nat.le_mul_of_pos_right _ (Nat.pow_pos (by decide))) hten
      obtain ⟨digit, rfl⟩ : ∃ n : ℕ, c = 48 + n := ⟨(c - 48).toNat, by omega⟩
      have hnext : wrapSigned intMax (wrapSigned intMax (value * 10) + (48 + digit - ch '0')) =
          (10 * value + digit : ℕ) := by
        have h48 : ch '0' = 48 := rfl
        rw [wrapSigned_of_le (n := value * 10) (by omega) (by unfold intMax; omega),
          wrapSigned_of_le (by omega) (by unfold intMax; omega)]
        omega
      have hsum : (10 * value + digit + 1) * 10 ^ ds.length ≤ 10 ^ 9 :=
        Nat.le_trans (Nat.mul_le_mul_right _ (by omega)) hten
      have hdigit : (48 + (digit : ℤ) - ch '0').toNat = digit := by
        have h48 : ch '0' = 48 := rfl
        omega
      rw [integerParseLoop, if_pos (hds _ List.mem_cons_self),
        if_neg (by unfold intMax; omega), hnext,
        ih (fun b hb => hds b (List.mem_cons_of_mem _ hb)) _ hsum, decimalFrom, hdigit]

/-- **Up to nine digits** are read as their value. -/
theorem integerParse_digits (hd : d ∈ Http.Text.digits) (hlength : d.length ≤ 9) :
    integerParse intMax (d.map octet) = some (decimal (d.map octet) : ℤ) := by
  have hdigits : ∀ c ∈ d.map octet, Cctype.test .isdigit c = true := by
    intro c hc
    obtain ⟨b, hb, rfl⟩ := List.mem_map.1 hc
    exact hd.2 b hb
  refine integerParseLoop_digits hdigits 0 ?_ true
  rw [List.length_map, Nat.zero_add, Nat.one_mul]
  exact Nat.pow_le_pow_right (by decide) hlength

end Version

/-! ### The request -/

section Roundtrip

variable {m d₁ d₂ : List Byte} {e : HttpMethod} {segments : List (List Byte)}
  {q f : Option (List Byte)} {headers : List (Header Byte)}

/-- The visitor records the methods that the enumeration names. -/
theorem recordHttpMethod_named (hm : (m, e) ∈ methodNames) (st : RequestParse Byte) :
    m ∈ fixedMethods ∧ recordHttpMethod octet m st = st.setHttpMethod e := by
  have hall : methodNames.all (fun p => decide (p.1 ∈ fixedMethods) &&
      decide (httpMethodOf (p.1.map octet) = some p.2)) = true := by decide
  have hboth := List.all_eq_true.1 hall (m, e) hm
  rw [Bool.and_eq_true, decide_eq_true_eq, decide_eq_true_eq] at hboth
  exact ⟨hboth.1, by rw [recordHttpMethod, hboth.2]⟩

theorem recordVersion_digits (h₁ : d₁ ∈ Http.Text.digits) (h₂ : d₂ ∈ Http.Text.digits)
    (hlength₁ : d₁.length ≤ 9) (hlength₂ : d₂.length ≤ 9) (st : RequestParse Byte) :
    recordMinorVersion octet d₂ (recordMajorVersion octet d₁ st) =
      (st.setMajorVersion (decimal (d₁.map octet))).setMinorVersion (decimal (d₂.map octet)) := by
  rw [recordMinorVersion, recordMajorVersion, integerParse_digits h₁ hlength₁,
    integerParse_digits h₂ hlength₂]

/-- What is assigned for a path, a query and a fragment, where nothing has been assigned. -/
theorem assignReference_empty : ({} : Uri Byte).assignReference segments q f =
    { path := some (Uri.Text.path segments), query := q, fragment := f,
      path_segments := some segments } := by
  cases q <;> cases f <;> rfl

/-- **The text of a request is accepted as a whole, and its parts are recorded**, with none of them
lost and none of them twice. -/
theorem request_roundtrip (hm : (m, e) ∈ methodNames) (hne : segments ≠ [])
    (hsegments : ∀ x ∈ segments, x ∈ Uri.Text.segment)
    (hpath : ¬ bytes "//" <+: Uri.Text.path segments)
    (hq : ∀ x ∈ q, x ∈ Uri.Text.urics) (hf : ∀ x ∈ f, x ∈ Uri.Text.urics)
    (h₁ : d₁ ∈ Http.Text.digits) (h₂ : d₂ ∈ Http.Text.digits) (hlength₁ : d₁.length ≤ 9)
    (hlength₂ : d₂.length ≤ 9)
    (hheaders : ∀ h ∈ headers, h.name ∈ Http.Text.token ∧ h.value ∈ Http.Text.value) :
    ParsesWhole (Http.Text.request m (Uri.Text.reference segments q f) d₁ d₂ headers)
      (.ofParts e segments q f d₁ d₂ headers) := by
  obtain ⟨hfixed, hmethod⟩ := recordHttpMethod_named hm {}
  have hrequest := takes_request (fun z => takes_method_fixed hfixed z {})
    (fun z => takes_target_path hne hsegments hpath hq hf z _) h₁ h₂ hheaders []
  rw [hmethod, recordVersion_digits h₁ h₂ hlength₁ hlength₂] at hrequest
  have hparts := foldl_recordHeaderOf headers
    ((({ ({} : RequestParse Byte).setHttpMethod e with
      request.uri := (({} : Uri Byte).assignReference segments q f).assign
        (Uri.Text.reference segments q f) }).setMajorVersion
      (decimal (d₁.map octet))).setMinorVersion (decimal (d₂.map octet)))
  rw [assignReference_empty] at hparts
  have hrecorded : _ = Request.ofParts e segments q f d₁ d₂ headers := hparts
  refine parsesWhole_iff.2 ⟨[], ?_⟩
  rw [← hrecorded, ← assignReference_empty]
  exact hrequest

/-- The request `GET /a?b` with a header. -/
theorem request_roundtrip_get :
    ParsesWhole (Http.Text.request (bytes "GET")
      (Uri.Text.reference [bytes "a"] (some (bytes "b")) none)
        (bytes "1") (bytes "1") [⟨bytes "Host", bytes "x y"⟩])
      (.ofParts .GET [bytes "a"] (some (bytes "b")) none (bytes "1") (bytes "1")
        [⟨bytes "Host", bytes "x y"⟩]) := by
  have hsegment : bytes "a" ∈ Uri.Text.segment :=
    ⟨bytes "a", mem_encoded (List.all_eq_true.1 rfl), [], Language.nil_mem_kstar _, rfl⟩
  have hquery : bytes "b" ∈ Uri.Text.urics := mem_encoded (List.all_eq_true.1 rfl)
  have hone : bytes "1" ∈ Http.Text.digits := ⟨by decide, List.all_eq_true.1 rfl⟩
  have hname : bytes "Host" ∈ Http.Text.token := ⟨by decide, List.all_eq_true.1 rfl⟩
  have hvalue : bytes "x y" ∈ Http.Text.value := by
    have hall : (bytes "x y").all (fun c => decide (32 ≤ c ∧ c ≤ 126)) = true := rfl
    refine ⟨fun c hc => of_decide_eq_true (List.all_eq_true.1 hall c hc), fun c hc => ?_⟩
    obtain rfl : (120 : Byte) = c := Option.some.inj hc
    decide
  refine request_roundtrip (m := bytes "GET") (by decide) (by decide) ?_ (by decide) ?_
    (by simp) hone
    hone (by decide) (by decide) ?_
  · simpa using hsegment
  · simpa using hquery
  · simpa using ⟨hname, hvalue⟩

end Roundtrip

end Hittop
