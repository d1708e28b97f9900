/-
**The numbers `IntegerParseVisitor` reads.**

The loop of the visitor tests whether a multiplication by ten would overflow, and then adds a digit
without a further test.  So what it reads is exact, or refused, unless some first digits of the text
make a number above the largest value whose tens are not above those of the largest value.

Main definitions:

* `Hittop.integerParseTrace` — the products and sums the loop computes, before they are stored;
* `Hittop.ClearOf` — no first digits make one of the numbers that slip through the test.

Main results:

* `Hittop.integerParseLoop_exact_iff` — the loop is exact or refuses, from any value on;
* `Hittop.integer_exact_iff` — so is the visitor, for the texts that are clear of those numbers.
-/

import Hittop.Http.Visitor

set_option relaxedAutoImplicit false
set_option autoImplicit false

namespace Hittop

/-- The products and sums of `integerParseLoop`, as they are before the conversion to the type. -/
def integerParseTrace (max : ℤ) : Bool → ℤ → ℤ → List ℤ → List ℤ
  | _, sign, value, [] => [value * sign]
  | first, sign, value, d :: rest =>
      if Cctype.test .isdigit d then
        if max / 10 < value then []
        else
          value * 10 :: (wrapSigned max (value * 10) + (d - ch '0')) ::
            integerParseTrace max false sign
              (wrapSigned max (wrapSigned max (value * 10) + (d - ch '0'))) rest
      else if d = ch '-' && first then integerParseTrace max false (-1) value rest
      else [value * sign]

/-- No digits that the text begins with make, after `value`, a number that is too large and has no
more tens than the largest value. -/
def ClearOf (max : ℤ) (value : ℕ) (text : List ℤ) : Prop :=
  ∀ p, p <+: text → max < decimalFrom value p → max / 10 * 10 + 9 < decimalFrom value p

/-- What is asked of the loop: it calls its callback with the value of the digits, if that is not
too large, and does not call it otherwise; and nothing overflows on the way. -/
structure Exact (max : ℤ) (n : ℕ) (called : Option ℤ) (trace : List ℤ) : Prop where
  value : (n : ℤ) ≤ max → called = some (n : ℤ)
  refused : max < n → called = none
  bounded : ∀ x ∈ trace, x ≤ max

section Loop

variable {max : ℤ}

theorem wrapSigned_eq {n : ℤ} (h₀ : 0 ≤ n) (h : n ≤ max) : wrapSigned max n = n := by
  have hmod : (n + (max + 1)) % (2 * (max + 1)) = n + (max + 1) :=
    Int.emod_eq_of_lt (by omega) (by omega)
  unfold wrapSigned
  omega

theorem le_decimalFrom (value : ℕ) (ds : List ℤ) : value ≤ decimalFrom value ds := by
  induction ds generalizing value with
  | nil => exact Nat.le_refl _
  | cons d ds ih =>
      have hrest := ih (10 * value + (d - ch '0').toNat)
      rw [decimalFrom]
      omega

/-- Where the test refuses, no number is too close to the largest value. -/
theorem clearOf_of_tens {value : ℕ} (hvalue : (value : ℤ) ≤ max) (h : max / 10 < value) (d : ℤ)
    (rest : List ℤ) : ClearOf max value (d :: rest) := by
  intro p hp hmax
  cases p with
  | nil =>
      rw [decimalFrom] at hmax
      omega
  | cons c p =>
      have hle := le_decimalFrom (10 * value + (c - ch '0').toNat) p
      rw [decimalFrom]
      omega

theorem clearOf_cons {value : ℕ} (hvalue : (value : ℤ) ≤ max) {d : ℤ} {rest : List ℤ} :
    ClearOf max value (d :: rest) ↔ ClearOf max (10 * value + (d - ch '0').toNat) rest := by
  constructor
  · intro h p hp hmax
    exact h (d :: p) (List.cons_prefix_cons.2 ⟨rfl, hp⟩) hmax
  · intro h p hp hmax
    cases p with
    | nil =>
        rw [decimalFrom] at hmax
        omega
    | cons c p =>
        obtain ⟨rfl, hrest⟩ := List.cons_prefix_cons.1 hp
        exact h p hrest hmax

/-- **The loop is exact or refuses**, from a value on that is not too large, if and only if the text
is clear of the numbers the test lets through. -/
theorem integerParseLoop_exact_iff {ds : List ℤ}
    (hds : ∀ c ∈ ds, Cctype.test .isdigit c = true) (first : Bool) {value : ℕ}
    (hvalue : (value : ℤ) ≤ max) :
    Exact max (decimalFrom value ds) (integerParseLoop max first 1 value ds)
      (integerParseTrace max first 1 value ds) ↔ ClearOf max value ds := by
  induction ds generalizing value first with
  | nil =>
      refine ⟨fun _ p hp hlt => ?_, fun _ => ⟨fun _ => ?_, fun hlt => ?_, ?_⟩⟩
      · rw [List.prefix_nil.1 hp, decimalFrom] at hlt
        omega
      · rw [integerParseLoop, Int.mul_one, wrapSigned_eq (by omega) hvalue, decimalFrom]
      · rw [decimalFrom] at hlt
        omega
      · simpa [integerParseTrace] using hvalue
  | cons d rest ih =>
      have hd := hds d List.mem_cons_self
      have hrest : ∀ c ∈ rest, Cctype.test .isdigit c = true :=
        fun c hc => hds c (List.mem_cons_of_mem _ hc)
      have h48 : ch '0' = 48 := rfl
      obtain ⟨hlow, hhigh⟩ := Cctype.isdigit_iff.1 hd
      by_cases htens : max / 10 < value
      · -- the test refuses: the number only grows with the digits that follow
        have hle := le_decimalFrom (10 * value + (d - ch '0').toNat) rest
        refine iff_of_true ⟨fun hn => ?_, fun _ => ?_, ?_⟩ (clearOf_of_tens hvalue htens d rest)
        · rw [decimalFrom] at hn
          omega
        · rw [integerParseLoop, if_pos hd, if_pos htens]
        · simp [integerParseTrace, hd, htens]
      · have hproduct : wrapSigned max (value * 10) = value * 10 :=
          wrapSigned_eq (by omega) (by omega)
        obtain ⟨next, hnext⟩ : ∃ next : ℕ, next = 10 * value + (d - ch '0').toNat := ⟨_, rfl⟩
        have hsum : (value : ℤ) * 10 + (d - ch '0') = next := by omega
        by_cases hfits : (next : ℤ) ≤ max
        · have hstored : wrapSigned max (wrapSigned max (value * 10) + (d - ch '0')) = next := by
            rw [hproduct, hsum, wrapSigned_eq (by omega) hfits]
          rw [clearOf_cons hvalue, ← hnext, ← ih hrest false hfits, decimalFrom, ← hnext,
            integerParseLoop, if_pos hd, if_neg htens, hstored, integerParseTrace, if_pos hd,
            if_neg htens, hstored, hproduct, hsum]
          refine ⟨fun h => ⟨h.value, h.refused, fun x hx => ?_⟩,
            fun h => ⟨h.value, h.refused, fun x hx => ?_⟩⟩
          · exact h.bounded x (List.mem_cons_of_mem _ (List.mem_cons_of_mem _ hx))
          · rcases List.mem_cons.1 hx with rfl | hx
            · omega
            · rcases List.mem_cons.1 hx with rfl | hx
              · exact hfits
              · exact h.bounded x hx
        · -- the sum overflows: this digit makes one of the numbers that slip through
          refine iff_of_false (fun h => ?_) fun h => ?_
          · have hmem : (next : ℤ) ∈ integerParseTrace max first 1 value (d :: rest) := by
              rw [integerParseTrace, if_pos hd, if_neg htens, hproduct, hsum]
              simp
            exact hfits (h.bounded _ hmem)
          · have hslip := h [d] (List.cons_prefix_cons.2 ⟨rfl, List.nil_prefix⟩)
            rw [decimalFrom, decimalFrom, ← hnext] at hslip
            have hlast := hslip (by omega)
            omega

end Loop

/-- **`IntegerParseVisitor` reads a number exactly or refuses it**, for a type with this largest
value: it calls its callback with the value of the digits where that fits, and does not call it
where it does not, and no product or sum exceeds the largest value; if and only if no first digits
of the text make a number that is too large and has no more tens than the largest value. -/
theorem integer_exact_iff (max : ℤ) (hmax : 0 ≤ max) (digits : List ℤ)
    (hdigits : ∀ c ∈ digits, Cctype.test .isdigit c = true) :
    ((decimal digits ≤ max → integerParse max digits = some (decimal digits : ℤ)) ∧
        (max < decimal digits → integerParse max digits = none) ∧
        ∀ x ∈ integerParseTrace max true 1 0 digits, x ≤ max) ↔
      ∀ p, p <+: digits → max < decimal p → max / 10 * 10 + 9 < decimal p := by
  have hzero : ((0 : ℕ) : ℤ) ≤ max := hmax
  have hloop := integerParseLoop_exact_iff hdigits true hzero
  exact ⟨fun ⟨hvalue, hrefused, hbounded⟩ => hloop.1 ⟨hvalue, hrefused, hbounded⟩,
    fun h => ⟨(hloop.2 h).value, (hloop.2 h).refused, (hloop.2 h).bounded⟩⟩

/-- The largest `int` is read. -/
theorem integer_exact_iff_int :
    ((decimal ((bytes "2147483647").map octet) ≤ intMax →
          integerParse intMax ((bytes "2147483647").map octet) =
            some (decimal ((bytes "2147483647").map octet) : ℤ)) ∧
        (intMax < decimal ((bytes "2147483647").map octet) →
          integerParse intMax ((bytes "2147483647").map octet) = none) ∧
        ∀ x ∈ integerParseTrace intMax true 1 0 ((bytes "2147483647").map octet), x ≤ intMax) ↔
      ∀ p, p <+: (bytes "2147483647").map octet → intMax < decimal p →
        intMax / 10 * 10 + 9 < decimal p :=
  integer_exact_iff intMax (by decide) _ (by decide)

/-- The number after the largest `int` is handed on as the smallest one, after a sum that does not
fit. -/
theorem integer_not_exact :
    intMax < decimal ((bytes "2147483648").map octet) ∧
      integerParse intMax ((bytes "2147483648").map octet) = some (-2147483648) ∧
      2147483648 ∈ integerParseTrace intMax true 1 0 ((bytes "2147483648").map octet) := by
  decide

end Hittop
