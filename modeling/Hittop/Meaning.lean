/-
**What a parse says about its input, whatever the error codes.**

A caller of `Parse` learns whether the input was accepted, and up to where, whether more of it is
needed, or that it was rejected.  The combinators decide on nothing else, so the verdict of a rule
is computed from the verdicts of its parts: sequence, ordered choice, exclusion and repetition of
recognizers, together with what the visitors do to their state.

Main definitions:

* `Hittop.ParseResult.verdict` — the verdict of a result;
* `Hittop.Meaning` — a recognizer with an effect on a state; `Hittop.Meaning.lift` has none;
* `Hittop.meaning`, `Hittop.parserMeaning` — the verdicts of `Parse` and `Parser`.

Main results:

* `Hittop.parserMeaning_concat`, `Hittop.parserMeaning_either`, … — one equation for each parser;
* `Hittop.parserMeaning_repeat` — a loop is one turn of itself;
* `Hittop.Meaning.turn_unique` — a loop without effects is the star.
-/

import Hittop.Bounds
import Hittop.Library.Recognizer
import Hittop.Limit

set_option relaxedAutoImplicit false
set_option autoImplicit false

namespace Hittop

open Exec

/-! ### Verdicts -/

/-- The verdict of a result. -/
def ParseResult.verdict (r : ParseResult) : Verdict :=
  match r.error with
  | .none => .accept r.pos
  | .incomplete => .incomplete
  | _ => .reject

namespace ParseResult

@[simp] theorem verdict_success (p : ℕ) : (success p).verdict = .accept p := rfl

theorem verdict_eq_accept {r : ParseResult} {n : ℕ} :
    r.verdict = .accept n ↔ r = success n := by
  obtain ⟨pos, error⟩ := r
  cases error <;> simp [verdict, success]

theorem verdict_eq_incomplete {r : ParseResult} :
    r.verdict = .incomplete ↔ r.error = .incomplete := by
  obtain ⟨pos, error⟩ := r
  cases error <;> simp [verdict]

@[simp] theorem verdict_advance (k : ℕ) (r : ParseResult) :
    (r.advance k).verdict = r.verdict.advance k := by
  obtain ⟨pos, error⟩ := r
  cases error <;> rfl

/-- Results with one verdict are told apart by their errors and positions only where they are
rejections. -/
theorem verdict_cases (r : ParseResult) :
    (∃ n, r = success n) ∨ (r.ok = false ∧ r.error = .incomplete ∧ r.verdict = .incomplete) ∨
      (r.ok = false ∧ r.error ≠ .incomplete ∧ r.verdict = .reject) := by
  obtain ⟨pos, error⟩ := r
  cases error <;> simp [verdict, success, ok]

theorem verdict_eq_reject {r : ParseResult} (hok : r.ok = false) (hinc : r.error ≠ .incomplete) :
    r.verdict = .reject := by
  rcases r.verdict_cases with ⟨n, rfl⟩ | ⟨-, h, -⟩ | ⟨-, -, h⟩
  · simp at hok
  · exact absurd h hinc
  · exact h

end ParseResult

/-- The verdict of a run. -/
def Exec.verdict {σ : Type} (x : Exec σ ParseResult) : Exec σ Verdict :=
  x >>= fun r => pure r.verdict

theorem Exec.verdict_ok_iff {σ : Type} {x : Exec σ ParseResult} {st st' : σ} {v : Verdict} :
    x.verdict st = .ok (v, st') ↔ ∃ r, x st = .ok (r, st') ∧ r.verdict = v := by
  rw [Exec.verdict, bind_ok_iff]
  constructor
  · rintro ⟨r, st₁, h, hv⟩
    cases hv
    exact ⟨r, h, rfl⟩
  · rintro ⟨r, h, rfl⟩
    exact ⟨r, st', h, rfl⟩

theorem Exec.verdict_error_iff {σ : Type} {x : Exec σ ParseResult} {st : σ} {e : Fault} :
    x.verdict st = .error e ↔ x st = .error e := by
  rw [Exec.verdict]
  cases h : x st with
  | ok p =>
      obtain ⟨r, st'⟩ := p
      rw [bind_of_ok h]
      constructor <;> (intro h; cases h)
  | error e' => rw [bind_of_error h, Except.error.injEq, Except.error.injEq]

@[simp] theorem Exec.verdict_pure {σ : Type} (r : ParseResult) :
    (pure r : Exec σ ParseResult).verdict = pure r.verdict := rfl

/-! ### Recognizers with effects -/

/-- A recognizer that works on a state. -/
abbrev Meaning (κ σ : Type) := List κ → Exec σ Verdict

namespace Meaning

variable {κ σ : Type}

/-- A recognizer that leaves the state alone. -/
def lift (f : Recognizer κ) : Meaning κ σ := fun s => pure (f s)

/-- `p`, then `q` on the rest. -/
def seq (p q : Meaning κ σ) : Meaning κ σ := fun s => do
  match ← p s with
  | .accept n => do
      let v ← q (s.drop n)
      pure (v.advance n)
  | v => pure v

/-- `p`, or `q` where `p` rejects. -/
def alt (p q : Meaning κ σ) : Meaning κ σ := fun s => do
  match ← p s with
  | .reject => q s
  | v => pure v

/-- `q` where `p` rejects, nothing where it accepts. -/
def exclude (p q : Meaning κ σ) : Meaning κ σ := fun s => do
  match ← p s with
  | .accept _ => pure .reject
  | .incomplete => pure .incomplete
  | .reject => q s

/-- One turn of the loop that repeats `p` and goes on as `loop`. -/
def turn (p loop : Meaning κ σ) : Meaning κ σ := fun s => do
  match ← p s with
  | .accept 0 => pure (.accept 0)
  | .accept (n + 1) => do
      let v ← loop (s.drop (n + 1))
      pure (v.advance (n + 1))
  | .incomplete => pure .incomplete
  | .reject => pure (.accept 0)

theorem lift_apply (f : Recognizer κ) (s : List κ) (st : σ) :
    (lift f : Meaning κ σ) s st = .ok (f s, st) := rfl

theorem seq_lift (f g : Recognizer κ) :
    seq (lift f) (lift g) = (lift (f.seq g) : Meaning κ σ) := by
  funext s
  simp only [seq, lift, pure_bind, Recognizer.seq_apply]
  cases f s <;> rfl

theorem alt_lift (f g : Recognizer κ) :
    alt (lift f) (lift g) = (lift (f.alt g) : Meaning κ σ) := by
  funext s
  simp only [alt, lift, pure_bind, Recognizer.alt_apply]
  cases f s <;> rfl

theorem exclude_lift (f g : Recognizer κ) :
    exclude (lift f) (lift g) = (lift (f.exclude g) : Meaning κ σ) := by
  funext s
  simp only [exclude, lift, pure_bind, Recognizer.exclude_apply]
  cases f s <;> rfl

/-- A loop without effects is the star. -/
theorem turn_unique {f : Recognizer κ} {loop : Meaning κ σ} (h : loop = turn (lift f) loop) :
    loop = lift f.star := by
  funext s
  induction hn : s.length using Nat.strongRecOn generalizing s with
  | ind n ih =>
      rw [h]
      simp only [turn, lift, pure_bind]
      rw [Recognizer.star_eq]
      cases hf : f s with
      | accept k =>
          cases k with
          | zero => rfl
          | succ k =>
              have hle := Recognizer.le_length hf
              simp only
              rw [ih _ (by rw [List.length_drop]; omega) _ rfl]
              rfl
      | incomplete => rfl
      | reject => rfl

/-! #### One step at a time -/

section Steps

variable {p q loop : Meaning κ σ} {s : List κ} {st st' : σ}

theorem seq_of_accept {n : ℕ} (h : p s st = .ok (.accept n, st')) :
    seq p q s st = (q (s.drop n) >>= fun v => pure (v.advance n)) st' := by
  rw [seq, bind_of_ok h]

theorem seq_of_incomplete (h : p s st = .ok (.incomplete, st')) :
    seq p q s st = .ok (.incomplete, st') := by
  rw [seq, bind_of_ok h]
  rfl

theorem seq_of_reject (h : p s st = .ok (.reject, st')) :
    seq p q s st = .ok (.reject, st') := by
  rw [seq, bind_of_ok h]
  rfl

theorem seq_of_error {e : Fault} (h : p s st = .error e) : seq p q s st = .error e := by
  rw [seq, bind_of_error h]

theorem seq_ok {n : ℕ} {v : Verdict} {st'' : σ} (h : p s st = .ok (.accept n, st'))
    (h' : q (s.drop n) st' = .ok (v, st'')) : seq p q s st = .ok (v.advance n, st'') := by
  rw [seq_of_accept h, bind_of_ok h']
  rfl

theorem alt_of_accept {n : ℕ} (h : p s st = .ok (.accept n, st')) :
    alt p q s st = .ok (.accept n, st') := by
  rw [alt, bind_of_ok h]
  rfl

theorem alt_of_incomplete (h : p s st = .ok (.incomplete, st')) :
    alt p q s st = .ok (.incomplete, st') := by
  rw [alt, bind_of_ok h]
  rfl

theorem alt_of_reject (h : p s st = .ok (.reject, st')) : alt p q s st = q s st' := by
  rw [alt, bind_of_ok h]

theorem alt_of_error {e : Fault} (h : p s st = .error e) : alt p q s st = .error e := by
  rw [alt, bind_of_error h]

theorem turn_of_accept {n : ℕ} (h : p s st = .ok (.accept n, st')) (hn : 0 < n) :
    turn p loop s st = (loop (s.drop n) >>= fun v => pure (v.advance n)) st' := by
  rw [turn, bind_of_ok h]
  cases n with
  | zero => omega
  | succ n => rfl

theorem turn_of_reject (h : p s st = .ok (.reject, st')) :
    turn p loop s st = .ok (.accept 0, st') := by
  rw [turn, bind_of_ok h]
  rfl

end Steps

end Meaning

/-! ### The verdicts of `Parse` and `Parser` -/

section Equations

variable {ρ φ κ ν σ : Type} (Γ : Env ρ φ κ) (V : Visitors ρ φ κ ν σ)

/-- The verdict of `Parse<G>(s, args...)`. -/
noncomputable def meaning (args : Option ν) (g : Rule ρ φ) : Meaning κ σ :=
  fun s => (outcome Γ V args g s).verdict

/-- The verdict of `Parser<G>{}(s, args...)`. -/
noncomputable def parserMeaning (args : Option ν) (g : Rule ρ φ) : Meaning κ σ :=
  fun s => (parserOutcome Γ V args g s).verdict

variable {Γ V} {args : Option ν} {g : Rule ρ φ}

/-- A parse with a visitor returns where it has a verdict. -/
theorem exists_visits_iff {v : ν} {s : List κ} {st st' : σ} {w : Verdict} :
    (∃ r, Visits Γ V v g s st r st' ∧ r.verdict = w) ↔
      meaning Γ V (some v) g s st = .ok (w, st') := by
  rw [meaning, Exec.verdict_ok_iff]
  simp only [visits_iff]

theorem meaning_none : meaning Γ V none g = parserMeaning Γ V none (Γ.optimized g) := by
  funext s
  rw [meaning, outcome_none, parserMeaning]

theorem meaning_some {v : ν} (h : V.operator v g = none) :
    meaning Γ V (some v) g = parserMeaning Γ V (some v) g := by
  funext s
  rw [meaning, outcome_some_of_none h, parserMeaning]

theorem parserMeaning_inherits {base : Rule ρ φ} (h : Γ.special g = .inherits base) :
    parserMeaning Γ V args g = parserMeaning Γ V args base := by
  funext s
  rw [parserMeaning, parserOutcome_eq, h]
  rfl

theorem parserMeaning_forwardRef {m : ρ} (h : Γ.special g = .forwardRef m) :
    parserMeaning Γ V args g = parserMeaning Γ V args (Γ.type m) := by
  funext s
  rw [parserMeaning, parserOutcome_eq, h]
  rfl

theorem parserMeaning_success (h : Γ.special g = .success) :
    parserMeaning Γ V args g = Meaning.lift .eps := by
  funext s
  rw [parserMeaning, parserOutcome_eq, h]
  rfl

theorem parserMeaning_failure (h : Γ.special g = .failure) :
    parserMeaning Γ V args g = Meaning.lift .fail := by
  funext s
  rw [parserMeaning, parserOutcome_eq, h]
  rfl

theorem parserMeaning_anyChar (h : Γ.special g = .anyChar) :
    parserMeaning Γ V args g = Meaning.lift (.satisfy fun _ => true) := by
  funext s
  rw [parserMeaning, parserOutcome_eq, h]
  cases s <;> rfl

theorem parserMeaning_literal {ch : ℤ} (h : Γ.special g = .literal ch) :
    parserMeaning Γ V args g = Meaning.lift (.satisfy fun c => decide (Γ.toInt c = ch)) := by
  funext s
  rw [parserMeaning, parserOutcome_eq, h]
  cases s with
  | nil => rfl
  | cons c s =>
      by_cases hc : Γ.toInt c = ch <;>
        simp [Env.operatorOutcome, Env.operatorCall, hc, Meaning.lift, ParseResult.verdict]

theorem parserMeaning_charFilter {f : φ} (h : Γ.special g = .charFilter f) :
    parserMeaning Γ V args g = Meaning.lift (.satisfy fun c => Γ.filter f (Γ.toInt c)) := by
  funext s
  rw [parserMeaning, parserOutcome_eq, h]
  cases s with
  | nil => rfl
  | cons c s =>
      by_cases hc : Γ.filter f (Γ.toInt c) = true <;>
        simp [Env.operatorOutcome, Env.operatorCall, hc, Meaning.lift, ParseResult.verdict]

/-- A token is read like the text of its characters. -/
theorem parseToken_verdict (get : List ℤ) (s : List κ) :
    (parseToken get (s.map Γ.toInt)).verdict = Recognizer.text Γ.toInt get s := by
  induction get generalizing s with
  | nil => cases s <;> simp [parseToken, mismatch, Recognizer.text]
  | cons b get ih =>
      cases s with
      | nil => simp [parseToken, mismatch, Recognizer.text, ParseResult.verdict,
          Recognizer.seq_apply]
      | cons c s =>
          by_cases hc : Γ.toInt c = b
          · have hstep : parseToken (b :: get) ((c :: s).map Γ.toInt) =
                (parseToken get (s.map Γ.toInt)).advance 1 := by
              simp only [parseToken, List.map_cons, mismatch, hc, if_true, List.length_cons,
                List.length_map, Nat.add_min_add_right, Nat.add_right_cancel_iff,
                Nat.add_lt_add_iff_right]
              split_ifs <;> simp [ParseResult.advance, ParseResult.success, Nat.add_comm]
            rw [hstep, ParseResult.verdict_advance, ih]
            simp [Recognizer.text, Recognizer.seq_apply, hc]
          · simp [parseToken, mismatch, hc, Recognizer.text, Recognizer.seq_apply,
              ParseResult.verdict]

theorem parserMeaning_token {get : List ℤ} (h : Γ.special g = .token get) :
    parserMeaning Γ V args g = Meaning.lift (.text Γ.toInt get) := by
  funext s
  rw [parserMeaning, parserOutcome_eq, h]
  simp only [Env.operatorOutcome, Env.operatorCall, Exec.verdict_pure, Meaning.lift,
    parseToken_verdict]

theorem parserMeaning_concat {first second : Rule ρ φ} (h : Γ.special g = .concat first second) :
    parserMeaning Γ V args g = (meaning Γ V args first).seq (meaning Γ V args second) := by
  funext s
  rw [parserMeaning, parserOutcome_eq, h]
  simp only [Env.operatorOutcome, Env.operatorCall, Exec.verdict, Meaning.seq, meaning, bind_assoc,
    pure_bind]
  refine congrArg (outcome Γ V args first s >>= ·) (funext fun r => ?_)
  rcases r.verdict_cases with ⟨n, rfl⟩ | ⟨hok, -, hv⟩ | ⟨hok, -, hv⟩
  · simp
  · simp [hok, hv]
  · simp [hok, hv]

theorem parserMeaning_either {first second : Rule ρ φ} (h : Γ.special g = .either first second) :
    parserMeaning Γ V args g = (meaning Γ V args first).alt (meaning Γ V args second) := by
  funext s
  rw [parserMeaning, parserOutcome_eq, h]
  simp only [Env.operatorOutcome, Env.operatorCall, Exec.verdict, Meaning.alt, meaning, bind_assoc,
    pure_bind]
  refine congrArg (outcome Γ V args first s >>= ·) (funext fun r => ?_)
  rcases r.verdict_cases with ⟨n, rfl⟩ | ⟨hok, hinc, hv⟩ | ⟨hok, hinc, hv⟩
  · simp
  · simp [hinc, hv]
  · simp [hok, hinc, hv]

theorem parserMeaning_unless {r d : Rule ρ φ} (h : Γ.special g = .unless_ r d) :
    parserMeaning Γ V args g = (meaning Γ V args r).exclude (meaning Γ V args d) := by
  funext s
  rw [parserMeaning, parserOutcome_eq, h]
  simp only [Env.operatorOutcome, Env.operatorCall, Exec.verdict, Meaning.exclude, meaning,
    bind_assoc, pure_bind]
  refine congrArg (outcome Γ V args r s >>= ·) (funext fun r => ?_)
  rcases r.verdict_cases with ⟨n, rfl⟩ | ⟨hok, hinc, hv⟩ | ⟨hok, hinc, hv⟩
  · simp [ParseResult.verdict]
  · simp [hinc, hv]
  · simp [hok, hinc, hv]

/-- The loop of a `Repeat` is one turn of itself. -/
theorem parserMeaning_repeat {g' : Rule ρ φ} (h : Γ.special g = .repeat_ g') :
    parserMeaning Γ V args g = (meaning Γ V args g').turn (parserMeaning Γ V args g) := by
  funext s
  have hloop : ∀ s, parserMeaning Γ V args g s = (repeats (outcome Γ V args g') s).verdict := by
    intro s
    rw [parserMeaning, parserOutcome_eq, h]
    rfl
  rw [hloop s, repeats_eq]
  simp only [Exec.verdict, Meaning.turn, meaning, bind_assoc, pure_bind]
  refine congrArg (outcome Γ V args g' s >>= ·) (funext fun r => ?_)
  rcases r.verdict_cases with ⟨n, rfl⟩ | ⟨hok, hinc, hv⟩ | ⟨hok, hinc, hv⟩
  · cases n with
    | zero => simp
    | succ n => simp [hloop, Exec.verdict]
  · simp [hok, hinc, hv]
  · simp [hok, hinc, hv]

end Equations

end Hittop
