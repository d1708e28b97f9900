/-
**`RepeatAndThen` gives back the latest iterations first.**

The first loop of the parser pushes every position it reaches on a circular buffer, which drops the
oldest one when it is full; the second loop tries `Rest` at the positions that are left, from the
latest on.  What the buffer holds after `n` iterations is said in terms of the positions alone, so
that the two loops can be told without it.

Main definitions:

* `Hittop.window` — the positions a circular buffer holds;
* `Hittop.Climb`, `Hittop.LatestMatch` — what the two loops do.

Main results:

* `Hittop.window_push` — `push_back` on the buffer;
* `Hittop.repeatAndThen_iff` — `Parse` of a `RepeatAndThen` returns just what the two loops say.
-/

import Hittop.Environment
import Hittop.Meaning

set_option relaxedAutoImplicit false
set_option autoImplicit false

namespace Hittop

open Exec

/-! ### The circular buffer -/

/-- `p (lo + d), …, p lo`. -/
def downTo (p : ℕ → ℕ) (lo : ℕ) : ℕ → List ℕ
  | 0 => [p lo]
  | d + 1 => p (lo + (d + 1)) :: downTo p lo d

/-- What a circular buffer of `size` entries holds of `p 0, …, p n`, the latest first. -/
def window (p : ℕ → ℕ) (size n : ℕ) : List ℕ := downTo p (n + 1 - size) (n - (n + 1 - size))

section Window

variable {p : ℕ → ℕ}

theorem downTo_length (lo d : ℕ) : (downTo p lo d).length = d + 1 := by
  induction d with
  | zero => rfl
  | succ d ih => rw [downTo, List.length_cons, ih]

theorem downTo_eq_cons (lo d : ℕ) : ∃ older, downTo p lo d = p (lo + d) :: older := by
  cases d with
  | zero => exact ⟨[], rfl⟩
  | succ d => exact ⟨_, rfl⟩

/-- Without its last entry. -/
theorem downTo_take (lo d : ℕ) : (downTo p lo (d + 1)).take (d + 1) = downTo p (lo + 1) d := by
  induction d with
  | zero => simp [downTo]
  | succ d ih =>
      have hindex : lo + (d + 1 + 1) = lo + 1 + (d + 1) := by omega
      rw [downTo, List.take_succ_cons, ih, hindex]
      rfl

theorem window_cons {size : ℕ} (hsize : 0 < size) (n : ℕ) :
    ∃ older, window p size n = p n :: older := by
  obtain ⟨older, h⟩ := downTo_eq_cons (p := p) (n + 1 - size) (n - (n + 1 - size))
  refine ⟨older, h.trans ?_⟩
  have hindex : n + 1 - size + (n - (n + 1 - size)) = n := by omega
  rw [hindex]

theorem window_zero {size : ℕ} (hsize : 0 < size) (h : p 0 = 0) :
    [0].take size = window p size 0 := by
  obtain ⟨m, rfl⟩ : ∃ m, size = m + 1 := ⟨size - 1, by omega⟩
  have hlo : 0 + 1 - (m + 1) = 0 := by omega
  simp [window, hlo, downTo, h]

/-- **`push_back`**: a full buffer drops its oldest entry. -/
theorem window_push {size : ℕ} (hsize : 0 < size) (n : ℕ) :
    (p (n + 1) :: window p size n).take size = window p size (n + 1) := by
  by_cases hfull : n + 1 < size
  · -- there is room for one more
    have hlo : n + 1 - size = 0 := by omega
    have hlo' : n + 1 + 1 - size = 0 := by omega
    have hpush : p (n + 1) :: downTo p 0 n = downTo p 0 (n + 1) := by
      rw [downTo, Nat.zero_add]
    rw [window, window, hlo, hlo', Nat.sub_zero, Nat.sub_zero, hpush]
    exact List.take_of_length_le (by rw [downTo_length]; omega)
  · obtain ⟨m, rfl⟩ : ∃ m, size = m + 1 := ⟨size - 1, by omega⟩
    obtain ⟨lo, rfl⟩ : ∃ lo, n = lo + m := ⟨n - m, by omega⟩
    have hlo : lo + m + 1 - (m + 1) = lo := by omega
    have hlo' : lo + m + 1 + 1 - (m + 1) = lo + 1 := by omega
    have hd : lo + m - lo = m := by omega
    have hd' : lo + m + 1 - (lo + 1) = m := by omega
    have hpush : p (lo + m + 1) :: downTo p lo m = downTo p lo (m + 1) := rfl
    rw [window, window, hlo, hlo', hd, hd', hpush, downTo_take]

end Window

/-! ### The two loops -/

section Loops

variable {κ : Type} {f g : List κ → Exec Unit ParseResult} {s : List κ} {p : ℕ → ℕ}
  {size n : ℕ} {e r : ParseResult}

/-- The run returns this result. -/
def Returns (x : Exec Unit ParseResult) (r : ParseResult) : Prop := x () = .ok (r, ())

/-- What the parser returns. -/
abbrev ReturnsOn (f : List κ → Exec Unit ParseResult) (t : List κ) (r : ParseResult) : Prop :=
  Returns (f t) r

/-- A rejection, which leaves no hope for more input. -/
def ParseResult.HardFailure (r : ParseResult) : Prop := r.ok = false ∧ r.error ≠ .incomplete

instance (r : ParseResult) : Decidable r.HardFailure := by
  unfold ParseResult.HardFailure
  infer_instance

/-- `p 0, …, p n` are the beginning and the positions of `n` successes in a row, each of which made
progress.  `P t r` says that a parse of `t` returns `r`. -/
structure Climb (P : List κ → ParseResult → Prop) (s : List κ) (p : ℕ → ℕ) (n : ℕ) : Prop where
  zero : p 0 = 0
  step : ∀ i, i < n → ∃ k, 0 < k ∧ P (s.drop (p i)) (.success k) ∧ p (i + 1) = p i + k

/-- `r` is the result at `p k`, for the largest `k` from `lo` to `n` where the parse does not fail,
or that at `p lo` if there is none. -/
def LatestMatch (P : List κ → ParseResult → Prop) (s : List κ) (p : ℕ → ℕ) (lo n : ℕ)
    (r : ParseResult) : Prop :=
  ∃ k r', lo ≤ k ∧ k ≤ n ∧ P (s.drop (p k)) r' ∧ r = r'.advance (p k) ∧
    (r'.HardFailure → k = lo) ∧
    ∀ j, k < j → j ≤ n → ∃ r'', P (s.drop (p j)) r'' ∧ r''.HardFailure

theorem returns_bind_iff {x : Exec Unit ParseResult} {h : ParseResult → Exec Unit ParseResult} :
    Returns (x >>= h) r ↔ ∃ r', Returns x r' ∧ Returns (h r') r := by
  unfold Returns
  rw [bind_ok_iff]
  constructor
  · rintro ⟨r', ⟨⟩, hx, hr⟩
    exact ⟨r', hx, hr⟩
  · rintro ⟨r', hx, hr⟩
    exact ⟨r', (), hx, hr⟩

theorem Climb.mono {P : List κ → ParseResult → Prop} {m : ℕ} (h : Climb P s p n) (hm : m ≤ n) :
    Climb P s p m :=
  ⟨h.zero, fun i hi => h.step i (by omega)⟩

/-- The first loop goes from each position to the next. -/
theorem climbs_window (hsize : 0 < size) (h : Climb (ReturnsOn f) s p n) {i : ℕ} (hi : i ≤ n) :
    climbs f size s (window p size i) () = climbs f size s (window p size n) () := by
  induction hi with
  | refl => rfl
  | @step n hi ih =>
      rw [ih (h.mono (Nat.le_succ n))]
      obtain ⟨older, holder⟩ := window_cons (p := p) hsize n
      obtain ⟨k, hk, hf, hnext⟩ := h.step n (Nat.lt_succ_self n)
      have hne : (ParseResult.success k).pos ≠ 0 := by
        rw [ParseResult.success_pos]
        omega
      rw [holder, climbs_cons, bind_of_ok hf, if_pos (ParseResult.success_ok k), if_neg hne,
        ParseResult.success_pos, ← hnext, ← holder, window_push hsize]

/-- **The first loop** ends where an attempt is the last. -/
theorem climbs_last (hsize : 0 < size) (h : Climb (ReturnsOn f) s p n)
    (he : Returns (f (s.drop (p n))) e)
    (hlast : e.ok = true → e.pos = 0) :
    climbs f size s ([0].take size) () = .ok (if e.error = .incomplete then .inl (e.advance (p n))
      else .inr (window p size n), ()) := by
  obtain ⟨older, holder⟩ := window_cons (p := p) hsize n
  rw [window_zero hsize h.zero, climbs_window hsize h (Nat.zero_le n), holder, climbs_cons,
    bind_of_ok he]
  rcases e.verdict_cases with ⟨k, rfl⟩ | ⟨hok, hinc, -⟩ | ⟨hok, hinc, -⟩
  · have hzero : k = 0 := by simpa using hlast
    simp [hzero]
  · simp [hok, hinc]
  · simp [hok, hinc]

/-- The positions of successes in a row. -/
def positions (f : List κ → Exec Unit ParseResult) (s : List κ) : ℕ → ℕ
  | 0 => 0
  | i + 1 =>
      match f (s.drop (positions f s i)) () with
      | .ok (r, _) => positions f s i + r.pos
      | .error _ => positions f s i

theorem positions_succ {i : ℕ} (h : Returns (f (s.drop (positions f s i))) e) :
    positions f s (i + 1) = positions f s i + e.pos := by
  unfold Returns at h
  rw [positions, h]

theorem Climb.push {i : ℕ} (h : Climb (ReturnsOn f) s (positions f s) i)
    (he : Returns (f (s.drop (positions f s i))) e) (hok : e.ok = true) (hpos : e.pos ≠ 0) :
    Climb (ReturnsOn f) s (positions f s) (i + 1) := by
  refine ⟨h.zero, fun j hj => ?_⟩
  rcases Nat.lt_succ_iff_lt_or_eq.1 hj with hj | rfl
  · exact h.step j hj
  · exact ⟨e.pos, by omega, ParseResult.eq_success hok ▸ he, positions_succ he⟩

/-- Where the first loop ends, it has gone through some positions up to a last one. -/
theorem exists_climb (hsize : 0 < size) {fuel i : ℕ} (h : Climb (ReturnsOn f) s (positions f s) i)
    {out : ParseResult ⊕ List ℕ}
    (hout : climb f size s fuel (window (positions f s) size i) () = .ok (out, ())) :
    ∃ n e, Climb (ReturnsOn f) s (positions f s) n ∧ Returns (f (s.drop (positions f s n))) e ∧
      (e.ok = true → e.pos = 0) := by
  induction fuel generalizing i with
  | zero => cases hout
  | succ fuel ih =>
      obtain ⟨older, holder⟩ := window_cons (p := positions f s) hsize i
      rw [holder, climb] at hout
      obtain ⟨e, ⟨⟩, he, hout⟩ := bind_ok_iff.1 hout
      by_cases hprogress : e.ok = true ∧ e.pos ≠ 0
      · obtain ⟨hok, hpos⟩ := hprogress
        rw [if_pos hok, if_neg hpos, ← positions_succ he, ← holder, window_push hsize] at hout
        exact ih (h.push he hok hpos) hout
      · refine ⟨i, e, h, he, fun hok => ?_⟩
        by_contra hpos
        exact hprogress ⟨hok, hpos⟩

theorem fallBack_cons (back next : ℕ) (older : List ℕ) :
    fallBack g s (back :: next :: older) = (do
      let result ← g (s.drop back)
      if result.HardFailure then fallBack g s (next :: older) else pure (result.advance back)) := by
  rw [fallBack]
  · refine congrArg (g (s.drop back) >>= ·) (funext fun result => ?_)
    by_cases hok : result.ok = true <;> by_cases hinc : result.error = .incomplete <;>
      simp [ParseResult.HardFailure, hok, hinc]
  · simp

/-- **The second loop** stops at the latest position where `Rest` does not fail. -/
theorem fallBack_downTo {lo d : ℕ} :
    Returns (fallBack g s (downTo p lo d)) r ↔ LatestMatch (ReturnsOn g) s p lo (lo + d) r := by
  induction d with
  | zero =>
      rw [downTo, fallBack, returns_bind_iff]
      constructor
      · rintro ⟨r', hr', hr⟩
        cases hr
        exact ⟨lo, r', Nat.le_refl _, Nat.le_refl _, hr', rfl, fun _ => rfl,
          fun j hj hj' => by omega⟩
      · rintro ⟨k, r', hlo, hk, hr', rfl, -, -⟩
        obtain rfl : k = lo := by omega
        exact ⟨r', hr', rfl⟩
  | succ d ih =>
      obtain ⟨older, holder⟩ := downTo_eq_cons (p := p) lo d
      rw [downTo, holder, fallBack_cons, ← holder, returns_bind_iff]
      constructor
      · rintro ⟨r', hr', hr⟩
        by_cases hfail : r'.HardFailure
        · -- one iteration is given back
          rw [if_pos hfail, ih] at hr
          obtain ⟨k, r'', hlo, hk, hr'', rfl, hlast, hlater⟩ := hr
          refine ⟨k, r'', hlo, by omega, hr'', rfl, hlast, fun j hj hj' => ?_⟩
          by_cases hnew : j = lo + (d + 1)
          · exact hnew ▸ ⟨r', hr', hfail⟩
          · exact hlater j hj (by omega)
        · rw [if_neg hfail] at hr
          cases hr
          exact ⟨lo + (d + 1), r', by omega, Nat.le_refl _, hr', rfl,
            fun h => absurd h hfail, fun j hj hj' => by omega⟩
      · rintro ⟨k, r', hlo, hk, hr', rfl, hlast, hlater⟩
        by_cases hnew : k = lo + (d + 1)
        · subst hnew
          refine ⟨r', hr', ?_⟩
          rw [if_neg fun hfail => absurd (hlast hfail) (by omega)]
          rfl
        · obtain ⟨r'', hr'', hfail⟩ := hlater (lo + (d + 1)) (by omega) (Nat.le_refl _)
          refine ⟨r'', hr'', ?_⟩
          rw [if_pos hfail, ih]
          exact ⟨k, r', hlo, by omega, hr', rfl, hlast, fun j hj hj' => hlater j hj (by omega)⟩

end Loops

/-! ### The parser -/

/-- **`RepeatAndThen` is latest-match-first backtracking** over the last `size` positions that
`Repeated` has reached.  Where the last attempt of `Repeated` needs more input, so does the whole;
otherwise the result is that of `Rest` at the latest of those positions where it does not fail, or
at the earliest if it fails at all of them. -/
theorem repeatAndThen_iff {ρ φ κ : Type} (Γ : Env ρ φ κ) (repeated rest : Rule ρ φ) {size : ℕ}
    (hsize : 0 < size) (s : List κ) (r : ParseResult) :
    Parses Γ (.repeatAndThen repeated rest size) s r ↔
      ∃ p n e, Climb (Parses Γ repeated) s p n ∧ Parses Γ repeated (s.drop (p n)) e ∧
        (e.ok = true → e.pos = 0) ∧
        (e.error = .incomplete ∧ r = e.advance (p n) ∨
          e.error ≠ .incomplete ∧ LatestMatch (Parses Γ rest) s p (n + 1 - size) n r) := by
  have hparses (g : Rule ρ φ) :
      Parses Γ g = ReturnsOn (outcome Γ (noVisitors ρ φ κ) none g) := by
    funext t r
    exact propext parses_iff
  have hrun : Parses Γ (.repeatAndThen repeated rest size) s r ↔
      ∃ out, climbs (outcome Γ (noVisitors ρ φ κ) none repeated) size s ([0].take size) () =
          .ok (out, ()) ∧
        Returns (out.elim pure (fallBack (outcome Γ (noVisitors ρ φ κ) none rest) s)) r := by
    rw [parses_iff, outcome_none, Env.optimized_eq_self _ (by simp),
      parserOutcome_repeatAndThen rfl, bind_ok_iff]
    constructor
    · rintro ⟨result | prior, ⟨⟩, h, h'⟩
      · exact ⟨.inl result, h, h'⟩
      · exact ⟨.inr prior, h, h'⟩
    · rintro ⟨result | prior, h, h'⟩
      · exact ⟨.inl result, (), h, h'⟩
      · exact ⟨.inr prior, (), h, h'⟩
  have hdownTo (p : ℕ → ℕ) (n : ℕ) :
      Returns (fallBack (outcome Γ (noVisitors ρ φ κ) none rest) s (window p size n)) r ↔
        LatestMatch (Parses Γ rest) s p (n + 1 - size) n r := by
    have hindex : n + 1 - size + (n - (n + 1 - size)) = n := by omega
    rw [window, fallBack_downTo, hindex, hparses]
  rw [hrun, hparses repeated]
  constructor
  · rintro ⟨out, hclimb, hout⟩
    obtain ⟨fuel, hfuel⟩ := (climb_chain _ size s _).limit_ok_iff.1 hclimb
    have hstart : Climb (ReturnsOn (outcome Γ (noVisitors ρ φ κ) none repeated)) s
        (positions (outcome Γ (noVisitors ρ φ κ) none repeated) s) 0 :=
      ⟨rfl, fun i hi => by omega⟩
    rw [window_zero hsize hstart.zero] at hfuel
    obtain ⟨n, e, hreached, he, hlast⟩ := exists_climb hsize hstart hfuel
    refine ⟨_, n, e, hreached, he, hlast, ?_⟩
    rw [climbs_last hsize hreached he hlast] at hclimb
    obtain rfl := (Prod.mk.inj (Except.ok.inj hclimb)).1
    by_cases hinc : e.error = .incomplete
    · rw [if_pos hinc] at hout
      exact .inl ⟨hinc, ((Prod.mk.inj (Except.ok.inj hout)).1).symm⟩
    · rw [if_neg hinc] at hout
      exact .inr ⟨hinc, (hdownTo _ n).1 hout⟩
  · rintro ⟨p, n, e, hclimb, he, hlast, hr⟩
    refine ⟨_, climbs_last hsize hclimb he hlast, ?_⟩
    rcases hr with ⟨hinc, rfl⟩ | ⟨hinc, hr⟩
    · rw [if_pos hinc]
      rfl
    · rw [if_neg hinc]
      exact (hdownTo p n).2 hr

/-- Three letters and then digits: with two positions left, the token is found one letter back. -/
theorem repeatAndThen_iff_letters :
    Parses octets (.repeatAndThen (.charFilter .isalpha) (.token [ch 'c', ch '1']) 2)
        (bytes "abc12") (.success 4) ↔
      ∃ p n e, Climb (Parses octets (.charFilter .isalpha)) (bytes "abc12") p n ∧
        Parses octets (.charFilter .isalpha) ((bytes "abc12").drop (p n)) e ∧
        (e.ok = true → e.pos = 0) ∧
        (e.error = .incomplete ∧ ParseResult.success 4 = e.advance (p n) ∨
          e.error ≠ .incomplete ∧ LatestMatch (Parses octets (.token [ch 'c', ch '1']))
            (bytes "abc12") p (n + 1 - 2) n (.success 4)) :=
  repeatAndThen_iff octets _ _ (by decide) _ _

end Hittop
