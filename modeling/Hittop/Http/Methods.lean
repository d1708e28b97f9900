/-
**The method of a request.**

The rule `Method` tries eight fixed tokens before the general one, and the visitor is called with
the fixed tokens only.  A method that is one of them is recorded if the enumeration names it; a
method that a fixed token is a proper prefix of is not accepted; any other is accepted and not
recorded.

Main definitions:

* `Hittop.Http.Text.fixedMethods` — the tokens of the rule `HttpMethod`;
* `Hittop.Http.Text.denotedMethod` — what a method is to be recorded as.

Main results:

* `Hittop.recognizer_httpMethod_cases` — which methods are fixed tokens, or begin with one;
* `Hittop.method_recorded_iff` — a method is recorded exactly if the enumeration names it.
-/

import Hittop.Http.Taking

set_option relaxedAutoImplicit false
set_option autoImplicit false

namespace Hittop

open Meaning
open Http.Grammar

namespace Http.Text

/-- The tokens of `HttpMethod`, in the order of the grammar. -/
def fixedMethods : List (List Byte) :=
  [bytes "GET", bytes "POST", bytes "PUT", bytes "DELETE", bytes "OPTIONS", bytes "HEAD",
    bytes "TRACE", bytes "CONNECT"]

/-- The methods that the enumeration names. -/
def methodNames : List (List Byte × HttpMethod) :=
  [(bytes "CONNECT", .CONNECT), (bytes "DELETE", .DELETE), (bytes "GET", .GET),
    (bytes "HEAD", .HEAD), (bytes "POST", .POST), (bytes "PUT", .PUT), (bytes "TRACE", .TRACE)]

/-- The value that denotes a method: an enumerator, or an extension method with its text. -/
def denotedMethod (m : List Byte) : GenericMethod Byte :=
  match methodNames.lookup m with
  | some e => .http e
  | none => .extension m

end Http.Text

open Http.Text (fixedMethods methodNames denotedMethod)

/-! ### The fixed tokens -/

section Fixed

variable {w m z : List Byte}

/-- A word without spaces that begins a text up to its first space begins what is before it. -/
theorem prefix_of_append_space (hw : 32 ∉ w) (h : w <+: m ++ 32 :: z) : w <+: m := by
  rcases List.prefix_or_prefix_of_prefix h (List.prefix_append m (32 :: z)) with hwm | ⟨t, rfl⟩
  · exact hwm
  · have ht : t <+: 32 :: z := (List.prefix_append_right_inj m).1 h
    cases t with
    | nil => rw [List.append_nil]
    | cons b t =>
        rw [List.cons_prefix_cons] at ht
        exact absurd (List.mem_append_right m (ht.1 ▸ List.mem_cons_self)) hw

theorem prefix_of_map_octet {x y : List Byte} (h : x.map octet <+: y.map octet) : x <+: y := by
  obtain ⟨t, ht⟩ := h
  obtain ⟨x', y', rfl, hx, rfl⟩ := List.map_eq_append_iff.1 ht.symm
  rw [List.map_injective_iff.2 (fun _ _ => octet_injective) hx]
  exact List.prefix_append _ _

/-- A choice of tokens takes the first that the text begins with. -/
theorem recognizer_tokens_cases (words : List (List Byte)) (hwords : ∀ w ∈ words, 32 ∉ w) :
    (∃ w ∈ words, w <+: m ∧
        recognizer octet (.either (words.map fun w => .token (w.map octet))) (m ++ 32 :: z) =
          .accept w.length) ∨
      (∀ w ∈ words, ¬ w <+: m) ∧
        recognizer octet (.either (words.map fun w => .token (w.map octet))) (m ++ 32 :: z) =
          .reject := by
  induction words with
  | nil => exact .inr ⟨by simp, rfl⟩
  | cons w words ih =>
      have hchoice : recognizer octet (.either ((w :: words).map fun w => .token (w.map octet))) =
          .alt (.text octet (w.map octet))
            (recognizer octet (.either (words.map fun w => .token (w.map octet)))) := rfl
      by_cases hw : w <+: m
      · obtain ⟨t, rfl⟩ := hw
        have hread : Recognizer.text octet (w.map octet) (w ++ t ++ 32 :: z) =
            .accept w.length := by
          rw [List.append_assoc]
          exact Recognizer.Reads.text octet w _
        refine .inl ⟨w, List.mem_cons_self, List.prefix_append _ _, ?_⟩
        rw [hchoice, Recognizer.alt_of_ne_reject (by rw [hread]; simp), hread]
      · have hspace := hwords w List.mem_cons_self
        have hreject : Recognizer.text octet (w.map octet) (m ++ 32 :: z) = .reject := by
          refine Recognizer.text_reject (fun h => ?_) fun h => ?_
          · exact hw (prefix_of_append_space hspace (prefix_of_map_octet h))
          · exact hspace ((prefix_of_map_octet h).subset (by simp))
        rw [hchoice, Recognizer.alt_of_reject hreject]
        rcases ih fun w hw => hwords w (List.mem_cons_of_mem _ hw) with ⟨w', hw', h⟩ | ⟨hall, h⟩
        · exact .inl ⟨w', List.mem_cons_of_mem _ hw', h⟩
        · exact .inr ⟨List.forall_mem_cons.2 ⟨hw, hall⟩, h⟩

/-- **Either a fixed token begins the method**, or `HttpMethod` rejects. -/
theorem recognizer_httpMethod_cases (m z : List Byte) :
    (∃ w ∈ fixedMethods, w <+: m ∧
        recognizer octet Http.Grammar.HttpMethod (m ++ 32 :: z) = .accept w.length) ∨
      (∀ w ∈ fixedMethods, ¬ w <+: m) ∧
        recognizer octet Http.Grammar.HttpMethod (m ++ 32 :: z) = .reject :=
  recognizer_tokens_cases fixedMethods (by decide)

end Fixed

/-! ### What is recorded of a method -/

section Recorded

variable {m w : List Byte}

/-- No fixed token begins another one. -/
theorem fixedMethods_prefix_free (hw : w ∈ fixedMethods) (hm : m ∈ fixedMethods) (h : w <+: m) :
    w = m := by
  have hall : fixedMethods.all (fun w => fixedMethods.all fun m =>
      !w.isPrefixOf m || decide (w = m)) = true := by decide
  have hpair := List.all_eq_true.1 (List.all_eq_true.1 hall w hw) m hm
  simpa [List.isPrefixOf_iff_prefix.2 h] using hpair

/-- **A fixed token** is taken, and the visitor is called with it. -/
theorem takes_method_fixed (hm : m ∈ fixedMethods) (z : List Byte) (st : RequestParse Byte) :
    Takes (recordMethod octet) m (32 :: z) st (recordHttpMethod octet m st) := by
  have hread : (recognizer octet Http.Grammar.HttpMethod).Reads m (32 :: z) := by
    rcases recognizer_httpMethod_cases m z with ⟨w, hw, hbegins, haccept⟩ | ⟨hall, -⟩
    · rwa [fixedMethods_prefix_free hw hm hbegins] at haccept
    · exact absurd (List.prefix_refl m) (hall m hm)
  exact (Takes.record hread).alt_left

/-- **A method that no fixed token begins** is taken and not recorded. -/
theorem takes_method_extension (hm : m ∈ Http.Text.token) (hfixed : ∀ w ∈ fixedMethods, ¬ w <+: m)
    (z : List Byte) (st : RequestParse Byte) : Takes (recordMethod octet) m (32 :: z) st st := by
  have hreject : recognizer octet Http.Grammar.HttpMethod (m ++ 32 :: z) = .reject := by
    rcases recognizer_httpMethod_cases m z with ⟨w, hw, hbegins, -⟩ | ⟨-, hreject⟩
    · exact absurd hbegins (hfixed w hw)
    · exact hreject
  have hread : (recognizer octet extension_method).Reads m (32 :: z) := by
    rw [extension_method, recognizer_forwardRef _ _ rfl]
    exact reads_token hm (by decide)
  exact Takes.alt_right (Refuses.record hreject) (Takes.lift hread)

/-- **A method that begins with a fixed token and goes on** is not accepted: a space is missing. -/
theorem refuses_method_longer (hm : m ∈ Http.Text.token) (hw : w ∈ fixedMethods) (hbegins : w <+: m)
    (hne : w ≠ m) (z : List Byte) :
    ∃ st, Refuses (recordRequest octet) (m ++ 32 :: z) ({} : RequestParse Byte) st := by
  obtain ⟨w', hw', hbegins', haccept⟩ : ∃ w' ∈ fixedMethods, w' <+: m ∧
      recognizer octet Http.Grammar.HttpMethod (m ++ 32 :: z) = .accept w'.length := by
    rcases recognizer_httpMethod_cases m z with h | ⟨hall, -⟩
    · exact h
    · exact absurd hbegins (hall w hw)
  obtain ⟨t, rfl⟩ := hbegins'
  cases t with
  | nil =>
      -- the token that was found would be the method itself
      rw [List.append_nil] at hbegins hne
      exact absurd (fixedMethods_prefix_free hw hw' hbegins) hne
  | cons c t =>
      have hc : Http.Text.tokenChar c = true := hm.2 c (by simp)
      have hspace : Refuses (skipped octet SP) (c :: (t ++ 32 :: z))
          (recordHttpMethod octet w' {}) (recordHttpMethod octet w' {}) := by
        refine Refuses.lift (lit_reject (fun h32 => ?_) _)
        rw [octet_injective (a := c) (b := 32) h32] at hc
        exact absurd hc (by decide)
      have hmethod : Takes (recordMethod octet) w' (c :: (t ++ 32 :: z)) {}
          (recordHttpMethod octet w' {}) := by
        refine Takes.alt_left (Takes.record ?_)
        rw [Recognizer.Reads, ← haccept, List.append_assoc]
        rfl
      rw [List.append_assoc]
      exact ⟨_, Refuses.seq_left (hmethod.seq_refuses hspace.seq_left)⟩

/-- What the visitor makes of a fixed token. -/
theorem httpMethodOf_fixed (hm : m ∈ fixedMethods) :
    (recordHttpMethod octet m {}).request.method =
      match methodNames.lookup m with
      | some e => .http e
      | none => .http .UNKNOWN := by
  have hall : fixedMethods.all (fun m => decide ((recordHttpMethod octet m {}).request.method =
      match methodNames.lookup m with
      | some e => .http e
      | none => .http .UNKNOWN)) = true := by decide
  exact of_decide_eq_true (List.all_eq_true.1 hall m hm)

theorem recordVersion_method (d₁ d₂ : List Byte) (st : RequestParse Byte) :
    (recordMinorVersion octet d₂ (recordMajorVersion octet d₁ st)).request.method =
      st.request.method := by
  unfold recordMinorVersion recordMajorVersion
  split <;> split <;> rfl

variable {segments : List (List Byte)} {d₁ d₂ : List Byte}

/-- A request without headers whose method is taken. -/
theorem parsesWhole_of_method {st : RequestParse Byte}
    (hm : ∀ z, Takes (recordMethod octet) m (32 :: z) {} st) (hne : segments ≠ [])
    (hsegments : ∀ x ∈ segments, x ∈ Uri.Text.segment)
    (hpath : ¬ bytes "//" <+: Uri.Text.path segments)
    (h₁ : d₁ ∈ Http.Text.digits) (h₂ : d₂ ∈ Http.Text.digits) :
    ∃ r, ParsesWhole (Http.Text.request m (Uri.Text.path segments) d₁ d₂ []) r ∧
      r.method = st.request.method := by
  have htarget (z : List Byte) := takes_target_path (q := none) (f := none) hne hsegments hpath
    (by simp) (by simp) z st
  have htext : Uri.Text.reference segments none none = Uri.Text.path segments := by
    simp [Uri.Text.reference, Uri.Text.led]
  rw [htext] at htarget
  have hrequest := takes_request hm htarget h₁ h₂ (List.forall_mem_nil _) []
  exact ⟨_, parsesWhole_iff.2 ⟨_, hrequest⟩, recordVersion_method d₁ d₂ _⟩

/-- What is recorded of a method is what is recorded when the method is taken. -/
theorem recorded_method {r : Request Byte} {st : RequestParse Byte}
    (hr : ParsesWhole (Http.Text.request m (Uri.Text.path segments) d₁ d₂ []) r)
    (hm : ∀ z, Takes (recordMethod octet) m (32 :: z) {} st) (hne : segments ≠ [])
    (hsegments : ∀ x ∈ segments, x ∈ Uri.Text.segment)
    (hpath : ¬ bytes "//" <+: Uri.Text.path segments)
    (h₁ : d₁ ∈ Http.Text.digits) (h₂ : d₂ ∈ Http.Text.digits) : r.method = st.request.method := by
  obtain ⟨r', hr', hmethod⟩ := parsesWhole_of_method hm hne hsegments hpath h₁ h₂
  rw [hr.unique hr', hmethod]

/-- A request whose method begins with a fixed token and goes on is not accepted. -/
theorem not_parsesWhole_longer (hm : m ∈ Http.Text.token) (hw : w ∈ fixedMethods)
    (hbegins : w <+: m)
    (hne : w ≠ m) (t : List Byte) (r : Request Byte) :
    ¬ ParsesWhole (Http.Text.request m t d₁ d₂ []) r := by
  intro hr
  obtain ⟨z, hz⟩ : ∃ z, Http.Text.request m t d₁ d₂ [] ++ [] = m ++ 32 :: z := by
    refine ⟨t ++ bytes " HTTP/" ++ d₁ ++ bytes "." ++ d₂ ++ bytes "\r\n\r\n", ?_⟩
    simp [Http.Text.request, Http.Text.requestLine, bytes]
  obtain ⟨st, hrefuses⟩ := refuses_method_longer hm hw hbegins hne z
  obtain ⟨name, htakes⟩ := parsesWhole_iff.1 hr
  rw [Takes, hz, hrefuses] at htakes
  cases htakes

theorem lookup_of_not_mem (hm : m ∉ methodNames.map Prod.fst) : methodNames.lookup m = none := by
  rw [List.lookup_eq_none_iff]
  intro p hp
  simp only [bne_iff_ne, ne_eq]
  rintro rfl
  exact hm (List.mem_map_of_mem hp)

/-- A method without an enumerator is not recorded. -/
theorem named_of_recorded (hm : m ∈ Http.Text.token) (hne : segments ≠ [])
    (hsegments : ∀ x ∈ segments, x ∈ Uri.Text.segment)
    (hpath : ¬ bytes "//" <+: Uri.Text.path segments)
    (h₁ : d₁ ∈ Http.Text.digits) (h₂ : d₂ ∈ Http.Text.digits) {r : Request Byte}
    (hr : ParsesWhole (Http.Text.request m (Uri.Text.path segments) d₁ d₂ []) r)
    (hdenoted : r.method = denotedMethod m) : m ∈ methodNames.map Prod.fst := by
  by_contra hnamed
  rw [denotedMethod, lookup_of_not_mem hnamed] at hdenoted
  by_cases hfixed : m ∈ fixedMethods
  · -- a fixed token without an enumerator
    have hrecorded := recorded_method hr (fun z => takes_method_fixed hfixed z {}) hne
      hsegments hpath
      h₁ h₂
    rw [httpMethodOf_fixed hfixed, lookup_of_not_mem hnamed, hdenoted] at hrecorded
    cases hrecorded
  · by_cases hlonger : ∃ w ∈ fixedMethods, w <+: m
    · -- a fixed token that goes on
      obtain ⟨w, hw, hbegins⟩ := hlonger
      refine not_parsesWhole_longer hm hw hbegins ?_ _ r hr
      rintro rfl
      exact hfixed hw
    · -- any other token
      have hextension (z : List Byte) := takes_method_extension hm
        (fun w hw hbegins => hlonger ⟨w, hw, hbegins⟩) z {}
      have hrecorded := recorded_method hr hextension hne hsegments hpath h₁ h₂
      rw [hdenoted] at hrecorded
      cases hrecorded

/-- A method with an enumerator is recorded. -/
theorem recorded_of_named (hnamed : m ∈ methodNames.map Prod.fst) (hne : segments ≠ [])
    (hsegments : ∀ x ∈ segments, x ∈ Uri.Text.segment)
    (hpath : ¬ bytes "//" <+: Uri.Text.path segments)
    (h₁ : d₁ ∈ Http.Text.digits) (h₂ : d₂ ∈ Http.Text.digits) :
    ∃ r, ParsesWhole (Http.Text.request m (Uri.Text.path segments) d₁ d₂ []) r ∧
      r.method = denotedMethod m := by
  have hall : (methodNames.map Prod.fst).all (fun m => decide (m ∈ fixedMethods) &&
      (methodNames.lookup m).isSome) = true := by decide
  have hboth := List.all_eq_true.1 hall m hnamed
  rw [Bool.and_eq_true, decide_eq_true_eq, Option.isSome_iff_exists] at hboth
  obtain ⟨hfixed, e, he⟩ := hboth
  obtain ⟨r, hr, hmethod⟩ := parsesWhole_of_method (fun z => takes_method_fixed hfixed z {}) hne
    hsegments hpath h₁ h₂
  exact ⟨r, hr, by rw [hmethod, httpMethodOf_fixed hfixed, denotedMethod, he]⟩

/-- **A method is accepted and recorded exactly if the enumeration names it.**  `OPTIONS` and every
method that no fixed token begins are accepted, but leave the method unknown; what begins with a
fixed token and goes on is not accepted. -/
theorem method_recorded_iff (hm : m ∈ Http.Text.token) (hne : segments ≠ [])
    (hsegments : ∀ x ∈ segments, x ∈ Uri.Text.segment)
    (hpath : ¬ bytes "//" <+: Uri.Text.path segments)
    (h₁ : d₁ ∈ Http.Text.digits) (h₂ : d₂ ∈ Http.Text.digits) :
    (∃ r, ParsesWhole (Http.Text.request m (Uri.Text.path segments) d₁ d₂ []) r ∧
      r.method = denotedMethod m) ↔ m ∈ methodNames.map Prod.fst := by
  constructor
  · rintro ⟨r, hr, hdenoted⟩
    exact named_of_recorded hm hne hsegments hpath h₁ h₂ hr hdenoted
  · intro hnamed
    exact recorded_of_named hnamed hne hsegments hpath h₁ h₂

/-- The empty segment, of the path `/`. -/
theorem nil_mem_segment : [] ∈ Uri.Text.segment :=
  Language.append_mem_mul (Language.nil_mem_kstar _) (Language.nil_mem_kstar _)

theorem method_recorded_iff_get :
    (∃ r, ParsesWhole (Http.Text.request (bytes "GET") (Uri.Text.path [[]]) (bytes "1")
      (bytes "1") [])
      r ∧ r.method = denotedMethod (bytes "GET")) ↔ bytes "GET" ∈ methodNames.map Prod.fst :=
  method_recorded_iff ⟨by decide, List.all_eq_true.1 rfl⟩ (by decide) (by simp [nil_mem_segment])
    (by decide) ⟨by decide, List.all_eq_true.1 rfl⟩ ⟨by decide, List.all_eq_true.1 rfl⟩

/-- `PATCH` is accepted, but no extension method is recorded. -/
theorem method_not_recorded : ¬ ∃ r, ParsesWhole (bytes "PATCH / HTTP/1.1\r\n\r\n") r ∧
    r.method = .extension (bytes "PATCH") := by
  rintro ⟨r, hr, hmethod⟩
  have hwhole : ParsesWhole (Http.Text.request (bytes "PATCH") (Uri.Text.path [[]]) (bytes "1")
      (bytes "1") []) r := hr
  have hnamed : bytes "PATCH" ∈ methodNames.map Prod.fst :=
    named_of_recorded ⟨by decide, List.all_eq_true.1 rfl⟩ (by decide) (by simp [nil_mem_segment])
      (by decide)
      ⟨by decide, List.all_eq_true.1 rfl⟩ ⟨by decide, List.all_eq_true.1 rfl⟩ hwhole hmethod
  exact absurd hnamed (by decide)

end Recorded

end Hittop
