/-
**Where the iterator of a result points.**

Whatever the grammar, the visitors and the input, the iterator of a result lies inside the range
that was parsed; it is the end of the range when the error is `INCOMPLETE`, and a character that
can be looked at when the error is `BAD_CHAR`.

Main definitions:

* `Hittop.Exec.Ensures` — a property of every value a run returns;
* `Hittop.Placed` — the position of a result agrees with its error.

Main results:

* `Hittop.Env.operatorCall_placed` — `operator()` places its result if the parsers it calls do;
* `Hittop.parse_placed`, `Hittop.parser_placed` — every result of `Parse` and `Parser` is placed;
* `Hittop.result_position` — the same of what a caller of `Parse` sees.
-/

import Hittop.Environment
import Hittop.Fuel

set_option relaxedAutoImplicit false
set_option autoImplicit false

namespace Hittop

namespace Exec

variable {σ α β : Type}

/-! ### Properties of every returned value -/

/-- Every value the run returns has the property. -/
def Ensures (x : Exec σ α) (P : α → Prop) : Prop := ∀ st a st', x st = .ok (a, st') → P a

theorem Ensures.pure {P : α → Prop} {a : α} (h : P a) : Ensures (Pure.pure a : Exec σ α) P := by
  intro st b st' hb
  cases hb
  exact h

theorem Ensures.fault {P : α → Prop} (e : Fault) : Ensures (Exec.fault e : Exec σ α) P := by
  intro st b st' hb
  cases hb

theorem Ensures.bind {P : α → Prop} {Q : β → Prop} {x : Exec σ α} {f : α → Exec σ β}
    (hx : Ensures x P) (hf : ∀ a, P a → Ensures (f a) Q) : Ensures (x >>= f) Q := by
  intro st b st' h
  obtain ⟨a, st₁, ha, hb⟩ := bind_ok_iff.1 h
  exact hf a (hx st a st₁ ha) st₁ b st' hb

theorem Ensures.ite {P : α → Prop} {p : Prop} [Decidable p] {x y : Exec σ α}
    (hx : p → Ensures x P) (hy : ¬p → Ensures y P) : Ensures (if p then x else y) P := by
  by_cases hp : p
  · simpa [hp] using hx hp
  · simpa [hp] using hy hp

theorem Ensures.mono {P Q : α → Prop} {x : Exec σ α} (hx : Ensures x P) (h : ∀ a, P a → Q a) :
    Ensures x Q := fun st a st' ha => h a (hx st a st' ha)

/-- A run may go on in another way where the values it returns make no difference. -/
theorem Ensures.bind_congr {P : α → Prop} {x : Exec σ α} {f g : α → Exec σ β} (hx : Ensures x P)
    (h : ∀ a, P a → f a = g a) : x >>= f = x >>= g := by
  funext st
  rw [bind_eq, bind_eq]
  cases hxs : x st with
  | error e => rfl
  | ok p =>
      obtain ⟨a, st'⟩ := p
      exact congrFun (h a (hx st a st' hxs)) st'

theorem Ensures.true (x : Exec σ α) : Ensures x fun _ => True := fun _ _ _ _ => trivial

end Exec

open Exec

/-! ### Placed results -/

/-- The position of a result lies inside a range of `n` characters and agrees with its error. -/
structure Placed (n : ℕ) (r : ParseResult) : Prop where
  le : r.pos ≤ n
  incomplete : r.error = .incomplete → r.pos = n
  badChar : r.error = .badChar → r.pos < n

namespace Placed

theorem of_success {n p : ℕ} (h : p ≤ n) : Placed n (.success p) :=
  ⟨h, by simp, by simp⟩

/-- The end of the input, where a character is asked for. -/
theorem of_end : Placed 0 ⟨0, .incomplete⟩ := ⟨Nat.le_refl 0, fun _ => rfl, by simp⟩

/-- A character that is not the one asked for. -/
theorem of_badChar {n : ℕ} : Placed (n + 1) ⟨0, .badChar⟩ :=
  ⟨Nat.zero_le _, by simp, fun _ => Nat.succ_pos n⟩

/-- A result on the rest of a range, seen from the beginning of the range. -/
theorem advance {n k : ℕ} {r : ParseResult} (hk : k ≤ n) (h : Placed (n - k) r) :
    Placed n (r.advance k) := by
  obtain ⟨hle, hinc, hbad⟩ := h
  refine ⟨?_, fun he => ?_, fun he => ?_⟩
  · simp only [ParseResult.advance_pos]
    omega
  · have := hinc he
    simp only [ParseResult.advance_pos]
    omega
  · have := hbad he
    simp only [ParseResult.advance_pos]
    omega

end Placed

section Positions

variable {ρ φ κ ν σ : Type}

/-- Every result of a parser is placed in the range it is given. -/
def AllPlaced (p : List κ → Exec σ ParseResult) : Prop := ∀ s, Ensures (p s) (Placed s.length)

theorem repeatLoop_placed {p : List κ → Exec σ ParseResult} (hp : AllPlaced p) (k : ℕ) :
    AllPlaced (repeatLoop p k) := by
  induction k with
  | zero => intro s; exact Ensures.fault _
  | succ k ih =>
      intro s
      refine (hp s).bind fun r hr => Ensures.ite (fun _ => ?_) fun _ => ?_
      · refine Ensures.ite (fun _ => Ensures.pure (Placed.of_success (by omega))) fun _ => ?_
        refine (ih _).bind fun rest hrest => Ensures.pure (Placed.advance hr.le ?_)
        simpa using hrest
      · exact Ensures.ite (fun _ => Ensures.pure hr)
          fun _ => Ensures.pure (Placed.of_success (by omega))

/-- What the first loop of `Parser<RepeatAndThen>` ends in: a result or prior successes, all of
them inside the range. -/
def PlacedPrior (n : ℕ) : ParseResult ⊕ List ℕ → Prop
  | .inl r => Placed n r
  | .inr prior => ∀ p ∈ prior, p ≤ n

theorem climb_placed {p : List κ → Exec σ ParseResult} (hp : AllPlaced p) (size : ℕ) (s : List κ)
    (k : ℕ) (prior : List ℕ) (hprior : ∀ q ∈ prior, q ≤ s.length) :
    Ensures (climb p size s k prior) (PlacedPrior s.length) := by
  induction k generalizing prior with
  | zero => exact Ensures.fault _
  | succ k ih =>
      cases prior with
      | nil => exact Ensures.fault _
      | cons back older =>
          have hback : back ≤ s.length := hprior back (by simp)
          refine (hp _).bind fun r hr => Ensures.ite (fun _ => ?_) fun _ => ?_
          · refine Ensures.ite (fun _ => Ensures.pure hprior) fun _ => ih _ fun q hq => ?_
            have hr' : r.pos ≤ s.length - back := by simpa using hr.le
            rcases List.mem_cons.1 (List.mem_of_mem_take hq) with rfl | hq
            · omega
            · exact hprior q hq
          · refine Ensures.ite (fun _ => Ensures.pure ?_) fun _ => Ensures.pure hprior
            exact Placed.advance hback (by simpa using hr)

theorem fallBack_placed {p : List κ → Exec σ ParseResult} (hp : AllPlaced p) (s : List κ) :
    ∀ prior : List ℕ, (∀ q ∈ prior, q ≤ s.length) →
      Ensures (fallBack p s prior) (Placed s.length)
  | [], _ => Ensures.fault _
  | [back], h => (hp _).bind fun r hr =>
      Ensures.pure (Placed.advance (h back (by simp)) (by simpa using hr))
  | back :: older :: rest, h => (hp _).bind fun r hr => by
      have hr' : Placed s.length (r.advance back) :=
        Placed.advance (h back (by simp)) (by simpa using hr)
      exact Ensures.ite (fun _ => Ensures.pure hr') fun _ =>
        Ensures.ite (fun _ => Ensures.pure hr') fun _ =>
          fallBack_placed hp s (older :: rest) fun q hq => h q (List.mem_cons_of_mem _ hq)

theorem mismatch_le (as bs : List ℤ) : mismatch as bs ≤ min as.length bs.length := by
  induction as generalizing bs with
  | nil => simp [mismatch]
  | cons a as ih =>
      cases bs with
      | nil => simp [mismatch]
      | cons b bs =>
          have := ih bs
          by_cases h : a = b
          · simp only [mismatch, h, if_true, List.length_cons]
            omega
          · simp [mismatch, h]

theorem parseToken_placed (get input : List ℤ) : Placed input.length (parseToken get input) := by
  have hle := mismatch_le input get
  unfold parseToken
  simp only
  split_ifs with hend hlen
  · exact ⟨by simp only; omega, fun _ => by simp only; omega, by simp⟩
  · exact Placed.of_success (by omega)
  · exact ⟨by simp only; omega, by simp, fun _ => by simp only; omega⟩

/-- `operator()` places its result if the parsers it calls do. -/
theorem Env.operatorCall_placed (Γ : Env ρ φ κ)
    {i p t : Rule ρ φ → List κ → Exec σ ParseResult} (hi : ∀ g, AllPlaced (i g))
    (hp : ∀ g, AllPlaced (p g)) (k : ℕ) (sp : Special ρ φ) :
    AllPlaced (Γ.operatorCall i p t k sp) := by
  intro s
  cases sp with
  | inherits base => exact hi _ _
  | forwardRef m => exact hi _ _
  | success => exact Ensures.pure (Placed.of_success (by omega))
  | failure => exact Ensures.pure ⟨by simp, by simp, by simp⟩
  | anyChar =>
      cases s with
      | nil => exact Ensures.pure Placed.of_end
      | cons c s => exact Ensures.pure (Placed.of_success (by simp))
  | literal | charFilter =>
      cases s with
      | nil => exact Ensures.pure Placed.of_end
      | cons c s =>
          exact Ensures.ite (fun _ => Ensures.pure (Placed.of_success (by simp)))
            fun _ => Ensures.pure Placed.of_badChar
  | charClass rules =>
      cases s with
      | nil => exact Ensures.pure Placed.of_end
      | cons c s =>
          refine Ensures.ite (fun _ => ?_) fun _ => Ensures.fault _
          refine (Ensures.true _).bind fun entry _ => ?_
          exact Ensures.ite (fun _ => Ensures.pure (Placed.of_success (by simp)))
            fun _ => Ensures.pure Placed.of_badChar
  | token get =>
      have := parseToken_placed get (s.map Γ.toInt)
      exact Ensures.pure (by simpa using this)
  | concat first second =>
      refine (hp first s).bind fun r hr => Ensures.ite (fun _ => ?_) fun _ => Ensures.pure hr
      exact (hp second _).bind fun r' hr' =>
        Ensures.pure (Placed.advance hr.le (by simpa using hr'))
  | either first second =>
      exact (hp first s).bind fun r hr =>
        Ensures.ite (fun _ => Ensures.pure hr) fun _ => hp second s
  | unless_ reject default =>
      refine (hp reject s).bind fun r hr => Ensures.ite (fun _ => Ensures.pure hr) fun _ => ?_
      exact Ensures.ite (fun _ => Ensures.pure ⟨hr.le, by simp, by simp⟩) fun _ => hp default s
  | repeat_ g => exact repeatLoop_placed (hp g) k s
  | repeatAndThen repeated rest size =>
      refine (climb_placed (hp repeated) size s k _ fun q hq => ?_).bind fun out hout => ?_
      · have := List.mem_of_mem_take hq
        simp only [List.mem_singleton] at this
        omega
      · cases out with
        | inl r => exact Ensures.pure hout
        | inr prior => exact fallBack_placed (hp rest) s prior hout
  | force g =>
      exact (hp g s).bind fun r hr => Ensures.pure (Placed.of_success hr.le)
  | undefined => exact Ensures.fault _

/-- What a runner may hold keeps every property of the results of its calls. -/
theorem runBody_ensures {P : ParseResult → Prop} {runner : Option ν → Exec σ ParseResult}
    (h : ∀ args, Ensures (runner args) P) (s : List κ) (body : Body κ ν σ)
    (result : Option ParseResult) (hresult : ∀ r, result = some r → P r) :
    Ensures (runBody runner s body result) fun result => ∀ r, result = some r → P r := by
  induction body generalizing result with
  | done st =>
      intro st₀ result' st' hb
      cases hb
      exact hresult
  | throw e => exact Ensures.fault e
  | run copy args st next ih =>
      intro st₀ result' st' hb
      cases hrun : runner args st with
      | error e => simp [runBody, hrun] at hb
      | ok p =>
          obtain ⟨r, st₁⟩ := p
          simp only [runBody, hrun] at hb
          refine ih _ _ _ (fun r' hr' => ?_) _ _ _ hb
          cases copy with
          | true => exact hresult r' hr'
          | false =>
              cases hr'
              exact h args st _ st₁ hrun

variable (Γ : Env ρ φ κ) (V : Visitors ρ φ κ ν σ)

private theorem parse_parser_placed (n : ℕ) :
    (∀ args g, AllPlaced (parse Γ V n args g)) ∧ ∀ args g, AllPlaced (parser Γ V n args g) := by
  induction n with
  | zero => exact ⟨fun _ _ _ => Ensures.fault _, fun _ _ _ => Ensures.fault _⟩
  | succ n ih =>
      obtain ⟨hp, hq⟩ := ih
      refine ⟨fun args g s => ?_, fun args g => ?_⟩
      · cases args with
        | none => exact hq _ _ _
        | some v =>
            simp only [parse]
            cases V.operator v g with
            | none => exact hq _ _ _
            | some body =>
                intro st
                refine ((runBody_ensures (fun args => hp args g s) s (body st) none
                  (by simp)).bind fun result hresult => ?_) st
                cases result with
                | none => exact hp _ _ _
                | some r => exact Ensures.pure (hresult r rfl)
      · exact Γ.operatorCall_placed (hq args) (hp args) n (Γ.special g)

/-- **Every result of `Parse` is placed**, whatever the visitor does. -/
theorem parse_placed (n : ℕ) (args : Option ν) (g : Rule ρ φ) :
    AllPlaced (parse Γ V n args g) := (parse_parser_placed Γ V n).1 args g

/-- Every result of `Parser` is placed. -/
theorem parser_placed (n : ℕ) (args : Option ν) (g : Rule ρ φ) :
    AllPlaced (parser Γ V n args g) := (parse_parser_placed Γ V n).2 args g

variable {Γ V}

theorem Parses.placed {g : Rule ρ φ} {s : List κ} {r : ParseResult} (h : Parses Γ g s r) :
    Placed s.length r := by
  obtain ⟨n, hn⟩ := h
  exact parse_placed Γ _ n none g s () r () hn

theorem Visits.placed {v : ν} {g : Rule ρ φ} {s : List κ} {st st' : σ} {r : ParseResult}
    (h : Visits Γ V v g s st r st') : Placed s.length r := by
  obtain ⟨n, hn⟩ := h
  exact parse_placed Γ V n (some v) g s st r st' hn

/-- **The position of a result agrees with its error**, for every rule, with or without a visitor:
it lies inside the range, it is the end of the range if more input is needed, and a character
stands at it if that character was bad. -/
theorem result_position {n : ℕ} {args : Option ν} {g : Rule ρ φ} {s : List κ} {st st' : σ}
    {r : ParseResult} (h : parse Γ V n args g s st = .ok (r, st')) :
    r.pos ≤ s.length ∧ (r.error = .incomplete → r.pos = s.length) ∧
      (r.error = .badChar → ∃ c, s[r.pos]? = some c) := by
  obtain ⟨hle, hincomplete, hbad⟩ := parse_placed Γ V n args g s st r st' h
  refine ⟨hle, hincomplete, fun he => ?_⟩
  have hlt : r.pos < s.length := hbad he
  exact ⟨s[r.pos], List.getElem?_eq_getElem hlt⟩

/-- A token that is tried at the latest success of a loop and at the one before, in vain. -/
theorem result_position_backtrack :
    (1 : ℕ) ≤ (bytes "xxac").length ∧
      (ParseError.badChar = .incomplete → 1 = (bytes "xxac").length) ∧
      (ParseError.badChar = .badChar → ∃ c, (bytes "xxac")[1]? = some c) :=
  @result_position Name Cctype Byte Empty Unit octets (noVisitors Name Cctype Byte) 9 none
    (.repeatAndThen (.force (.literal [ch 'x'])) (.token [ch 'a', ch 'b']) 2) (bytes "xxac") () ()
    ⟨1, .badChar⟩ (by decide +kernel)

end Positions

end Hittop
