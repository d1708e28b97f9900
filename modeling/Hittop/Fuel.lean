/-
**More fuel never changes a result.**

A run of `Hittop.parse` that does not exhaust its fuel gives the same outcome with any larger
amount.  So the outcome of a parse is a property of the grammar, the visitors and the input, and
`Hittop.Parses` and `Hittop.Visits` are single-valued.

Main definitions:

* `Hittop.Exec.Below` — one run is another one that may have had less fuel.

Main results:

* `Hittop.Env.operatorCall_below` — `operator()` is monotone in the parsers it calls;
* `Hittop.parse_below`, `Hittop.parser_below` — so are `Parse` and `Parser` in the fuel;
* `Hittop.Parses.unique`, `Hittop.Visits.unique` — the result of a parse is unique;
* `Hittop.parse_none_eq` — a parse without a visitor leaves every state alone and does not depend
  on the family of visitors.
-/

import Hittop.Parser

set_option relaxedAutoImplicit false
set_option autoImplicit false

namespace Hittop

namespace Exec

variable {σ α β : Type}

/-! ### Runs, step by step -/

theorem bind_eq {x : Exec σ α} {f : α → Exec σ β} {st : σ} :
    (x >>= f) st = match x st with
      | .ok (a, st') => f a st'
      | .error e => .error e := by
  change Except.bind (x st) _ = _
  cases x st <;> rfl

theorem bind_ok_iff {x : Exec σ α} {f : α → Exec σ β} {st st' : σ} {b : β} :
    (x >>= f) st = .ok (b, st') ↔
      ∃ a st₁, x st = .ok (a, st₁) ∧ f a st₁ = .ok (b, st') := by
  rw [bind_eq]
  cases x st with
  | error e => simp
  | ok p =>
      constructor
      · exact fun h => ⟨p.1, p.2, rfl, h⟩
      · rintro ⟨a, st₁, h, hf⟩
        cases h
        exact hf

theorem bind_of_ok {x : Exec σ α} {f : α → Exec σ β} {st st' : σ} {a : α}
    (h : x st = .ok (a, st')) : (x >>= f) st = f a st' := by
  rw [bind_eq, h]

theorem bind_of_error {x : Exec σ α} {f : α → Exec σ β} {st : σ} {e : Fault}
    (h : x st = .error e) : (x >>= f) st = .error e := by
  rw [bind_eq, h]

@[simp] theorem pure_apply (a : α) (st : σ) : (pure a : Exec σ α) st = .ok (a, st) := rfl

@[simp] theorem fault_apply (e : Fault) (st : σ) :
    (Exec.fault e : Exec σ α) st = .error e := rfl

/-! ### Runs with less fuel -/

/-- `x` is the run `y`, except that it may run out of fuel. -/
def Below (x y : Exec σ α) : Prop := ∀ st, x st = .error .outOfFuel ∨ y st = x st

theorem Below.refl (x : Exec σ α) : Below x x := fun _ => Or.inr rfl

theorem Below.fuel (y : Exec σ α) : Below (Exec.fault .outOfFuel) y := fun _ => Or.inl rfl

theorem Below.bind {x y : Exec σ α} {f g : α → Exec σ β} (hx : Below x y)
    (hf : ∀ a, Below (f a) (g a)) : Below (x >>= f) (y >>= g) := by
  intro st
  rcases hx st with h | h
  · exact Or.inl (bind_of_error h)
  · cases hxs : x st with
    | error e => exact Or.inr (by rw [bind_of_error hxs, bind_of_error (h.trans hxs)])
    | ok p =>
        obtain ⟨a, st₁⟩ := p
        rw [bind_of_ok hxs, bind_of_ok (h.trans hxs)]
        exact hf a st₁

theorem Below.ite {p : Prop} [Decidable p] {x y x' y' : Exec σ α} (h : Below x y)
    (h' : Below x' y') : Below (if p then x else x') (if p then y else y') := by
  by_cases hp : p
  · simpa [hp] using h
  · simpa [hp] using h'

theorem Below.eq_of_ne {x y : Exec σ α} (h : Below x y) {st : σ}
    (hne : x st ≠ .error .outOfFuel) : y st = x st :=
  (h st).resolve_left hne

theorem Below.ok {x y : Exec σ α} (h : Below x y) {st st' : σ} {a : α}
    (hx : x st = .ok (a, st')) : y st = .ok (a, st') := by
  rw [h.eq_of_ne (by simp [hx]), hx]

end Exec

open Exec

section Monotone

variable {ρ φ κ ν σ : Type}

theorem repeatLoop_below {p q : List κ → Exec σ ParseResult} (h : ∀ s, Below (p s) (q s)) :
    ∀ {k k' : ℕ} (s : List κ), k ≤ k' → Below (repeatLoop p k s) (repeatLoop q k' s) := by
  intro k
  induction k with
  | zero => intro k' s _; exact Below.fuel _
  | succ k ih =>
      intro k' s hk
      obtain ⟨j, rfl⟩ : ∃ j, k' = j + 1 := ⟨k' - 1, by omega⟩
      refine (h s).bind fun r => Below.ite (Below.ite (Below.refl _) ?_) (Below.refl _)
      exact (ih _ (by omega)).bind fun _ => Below.refl _

theorem climb_below {p q : List κ → Exec σ ParseResult} (h : ∀ s, Below (p s) (q s))
    (size : ℕ) (s : List κ) : ∀ {k k' : ℕ} (prior : List ℕ), k ≤ k' →
      Below (climb p size s k prior) (climb q size s k' prior) := by
  intro k
  induction k with
  | zero => intro k' prior _; exact Below.fuel _
  | succ k ih =>
      intro k' prior hk
      obtain ⟨j, rfl⟩ : ∃ j, k' = j + 1 := ⟨k' - 1, by omega⟩
      cases prior with
      | nil => exact Below.refl _
      | cons back older =>
          refine (h _).bind fun r => Below.ite (Below.ite (Below.refl _) ?_) (Below.refl _)
          exact ih _ (by omega)

theorem fallBack_below {p q : List κ → Exec σ ParseResult} (h : ∀ s, Below (p s) (q s))
    (s : List κ) : ∀ prior : List ℕ, Below (fallBack p s prior) (fallBack q s prior)
  | [] => Below.refl _
  | [_] => (h _).bind fun _ => Below.refl _
  | _ :: back :: older => (h _).bind fun _ =>
      Below.ite (Below.refl _) (Below.ite (Below.refl _) (fallBack_below h s (back :: older)))

theorem charClassTester_below {p q : Rule ρ φ → List κ → Exec σ ParseResult}
    (h : ∀ g s, Below (p g s) (q g s)) (ch : κ) (rules : List (Rule ρ φ)) :
    Below (charClassTester p ch rules) (charClassTester q ch rules) := by
  induction rules with
  | nil => exact Below.refl _
  | cons first rest ih => exact (h _ _).bind fun _ => Below.ite (Below.refl _) ih

/-- `operator()` is monotone in the parsers it calls. -/
theorem Env.operatorCall_below (Γ : Env ρ φ κ)
    {i i' p p' t t' : Rule ρ φ → List κ → Exec σ ParseResult} {k k' : ℕ}
    (hi : ∀ g s, Below (i g s) (i' g s)) (hp : ∀ g s, Below (p g s) (p' g s))
    (ht : ∀ g s, Below (t g s) (t' g s)) (hk : k ≤ k') (sp : Special ρ φ) (s : List κ) :
    Below (Γ.operatorCall i p t k sp s) (Γ.operatorCall i' p' t' k' sp s) := by
  cases sp with
  | inherits base => exact hi _ _
  | forwardRef m => exact hi _ _
  | success => exact Below.refl _
  | failure => exact Below.refl _
  | anyChar => cases s <;> exact Below.refl _
  | literal ch => cases s <;> exact Below.refl _
  | charFilter f => cases s <;> exact Below.refl _
  | charClass rules =>
      cases s with
      | nil => exact Below.refl _
      | cons c s =>
          exact Below.ite ((charClassTester_below ht c rules).bind fun _ => Below.refl _)
            (Below.refl _)
  | token get => exact Below.refl _
  | concat first second =>
      exact (hp _ _).bind fun _ => Below.ite ((hp _ _).bind fun _ => Below.refl _) (Below.refl _)
  | either first second =>
      exact (hp _ _).bind fun _ => Below.ite (Below.refl _) (hp _ _)
  | unless_ r d =>
      exact (hp _ _).bind fun _ => Below.ite (Below.refl _) (Below.ite (Below.refl _) (hp _ _))
  | repeat_ g => exact repeatLoop_below (hp g) s hk
  | repeatAndThen repeated rest size =>
      refine (climb_below (hp repeated) size s _ hk).bind fun out => ?_
      cases out with
      | inl result => exact Below.refl _
      | inr prior => exact fallBack_below (hp rest) s prior
  | force g => exact (hp _ _).bind fun _ => Below.refl _
  | undefined => exact Below.refl _

theorem runBody_below {run run' : Option ν → Exec σ ParseResult}
    (h : ∀ args, Below (run args) (run' args)) (s : List κ) (body : Body κ ν σ)
    (result : Option ParseResult) :
    Below (runBody run s body result) (runBody run' s body result) := by
  induction body generalizing result with
  | done st => exact Below.refl _
  | throw e => exact Below.refl _
  | run copy args st next ih =>
      intro st₀
      rcases h args st with hr | hr
      · exact Or.inl (by simp [runBody, hr])
      · cases hrun : run args st with
        | error e => exact Or.inr (by simp [runBody, hr, hrun])
        | ok p =>
            obtain ⟨r, st'⟩ := p
            simp only [runBody, hr, hrun]
            exact ih _ _ _ _

variable (Γ : Env ρ φ κ) (V : Visitors ρ φ κ ν σ)

private theorem parse_parser_below (n : ℕ) : ∀ {m : ℕ}, n ≤ m →
    (∀ args g s, Below (parse Γ V n args g s) (parse Γ V m args g s)) ∧
      ∀ args g s, Below (parser Γ V n args g s) (parser Γ V m args g s) := by
  induction n with
  | zero => intro m _; exact ⟨fun _ _ _ => Below.fuel _, fun _ _ _ => Below.fuel _⟩
  | succ n ih =>
      intro m hm
      obtain ⟨j, rfl⟩ : ∃ j, m = j + 1 := ⟨m - 1, by omega⟩
      obtain ⟨hp, hq⟩ := ih (m := j) (by omega)
      refine ⟨fun args g s => ?_, fun args g s => ?_⟩
      · cases args with
        | none => exact hq _ _ _
        | some v =>
            simp only [parse]
            cases V.operator v g with
            | none => exact hq _ _ _
            | some body =>
                intro st
                refine ((runBody_below (fun args => hp args g s) s (body st) none).bind ?_) st
                intro result
                cases result with
                | none => exact hp _ _ _
                | some r => exact Below.refl _
      · simp only [parser]
        exact Γ.operatorCall_below (hq args) (hp args) (hq none) (by omega) _ s

/-- More fuel never changes the outcome of `Parse`. -/
theorem parse_below {n m : ℕ} (h : n ≤ m) (args : Option ν) (g : Rule ρ φ) (s : List κ) :
    Below (parse Γ V n args g s) (parse Γ V m args g s) :=
  (parse_parser_below Γ V n h).1 args g s

/-- More fuel never changes the outcome of `Parser`. -/
theorem parser_below {n m : ℕ} (h : n ≤ m) (args : Option ν) (g : Rule ρ φ) (s : List κ) :
    Below (parser Γ V n args g s) (parser Γ V m args g s) :=
  (parse_parser_below Γ V n h).2 args g s

variable {Γ V}

theorem parse_unique {n m : ℕ} {args : Option ν} {g : Rule ρ φ} {s : List κ} {st : σ}
    {x y : ParseResult × σ} (hx : parse Γ V n args g s st = .ok x)
    (hy : parse Γ V m args g s st = .ok y) : x = y := by
  have h₁ := (parse_below Γ V (Nat.le_max_left n m) args g s).ok hx
  have h₂ := (parse_below Γ V (Nat.le_max_right n m) args g s).ok hy
  exact Except.ok.inj (h₁.symm.trans h₂)

/-- The result of a parse without a visitor is unique. -/
theorem Parses.unique {g : Rule ρ φ} {s : List κ} {r r' : ParseResult} (h : Parses Γ g s r)
    (h' : Parses Γ g s r') : r = r' := by
  obtain ⟨_, hn⟩ := h
  obtain ⟨_, hm⟩ := h'
  exact (Prod.mk.injEq .. ▸ parse_unique hn hm).1

/-- The result of a parse with a visitor is unique, and so is the state it leaves. -/
theorem Visits.unique {v : ν} {g : Rule ρ φ} {s : List κ} {st st' st'' : σ} {r r' : ParseResult}
    (h : Visits Γ V v g s st r st') (h' : Visits Γ V v g s st r' st'') : r = r' ∧ st' = st'' := by
  obtain ⟨_, hn⟩ := h
  obtain ⟨_, hm⟩ := h'
  exact Prod.mk.injEq .. ▸ parse_unique hn hm

end Monotone

/-! ### Parsing without a visitor -/

section Lift

variable {ρ φ κ ν σ α β : Type}

/-- A run without visitors as a run over any state. -/
def Exec.lift (x : Exec Unit α) : Exec σ α := fun st =>
  match x () with
  | .ok (a, _) => .ok (a, st)
  | .error e => .error e

theorem Exec.lift_bind (x : Exec Unit α) (f : α → Exec Unit β) :
    (Exec.lift (x >>= f) : Exec σ β) = Exec.lift x >>= fun a => Exec.lift (f a) := by
  funext st
  simp only [Exec.lift, Exec.bind_eq]
  cases x () <;> rfl

theorem Exec.lift_pure (a : α) : (Exec.lift (pure a) : Exec σ α) = pure a := rfl

theorem Exec.lift_fault (e : Fault) : (Exec.lift (Exec.fault e) : Exec σ α) = Exec.fault e := rfl

theorem Exec.lift_ite {p : Prop} [Decidable p] (x y : Exec Unit α) :
    (Exec.lift (if p then x else y) : Exec σ α) = if p then Exec.lift x else Exec.lift y := by
  by_cases hp : p <;> simp [hp]

theorem Exec.lift_ok_iff {x : Exec Unit α} {st st' : σ} {a : α} :
    Exec.lift x st = .ok (a, st') ↔ x () = .ok (a, ()) ∧ st' = st := by
  rw [Exec.lift]
  cases x () with
  | error e => simp
  | ok p => simp [Prod.ext_iff, eq_comm]

theorem repeatLoop_lift (p : List κ → Exec Unit ParseResult) (k : ℕ) (s : List κ) :
    repeatLoop (fun s => (Exec.lift (p s) : Exec σ ParseResult)) k s =
      Exec.lift (repeatLoop p k s) := by
  induction k generalizing s with
  | zero => rfl
  | succ k ih =>
      simp only [repeatLoop, Exec.lift_bind, Exec.lift_ite, Exec.lift_pure, ih]

theorem climb_lift (p : List κ → Exec Unit ParseResult) (size : ℕ) (s : List κ) (k : ℕ)
    (prior : List ℕ) :
    climb (fun s => (Exec.lift (p s) : Exec σ ParseResult)) size s k prior =
      Exec.lift (climb p size s k prior) := by
  induction k generalizing prior with
  | zero => rfl
  | succ k ih =>
      cases prior with
      | nil => rfl
      | cons back older =>
          simp only [climb, Exec.lift_bind, Exec.lift_ite, Exec.lift_pure, ih]

theorem fallBack_lift (p : List κ → Exec Unit ParseResult) (s : List κ) : ∀ prior : List ℕ,
    fallBack (fun s => (Exec.lift (p s) : Exec σ ParseResult)) s prior =
      Exec.lift (fallBack p s prior)
  | [] => rfl
  | [back] => by simp only [fallBack, Exec.lift_bind, Exec.lift_pure]
  | back :: older :: rest => by
      simp only [fallBack, Exec.lift_bind, Exec.lift_ite, Exec.lift_pure,
        fallBack_lift p s (older :: rest)]

theorem charClassTester_lift (p : Rule ρ φ → List κ → Exec Unit ParseResult) (ch : κ)
    (rules : List (Rule ρ φ)) :
    charClassTester (fun g s => (Exec.lift (p g s) : Exec σ ParseResult)) ch rules =
      Exec.lift (charClassTester p ch rules) := by
  induction rules with
  | nil => rfl
  | cons first rest ih =>
      simp only [charClassTester, Exec.lift_bind, Exec.lift_ite, Exec.lift_pure, ih]

theorem Env.operatorCall_lift (Γ : Env ρ φ κ)
    (i p t : Rule ρ φ → List κ → Exec Unit ParseResult) (k : ℕ) (sp : Special ρ φ) (s : List κ) :
    Γ.operatorCall (fun g s => (Exec.lift (i g s) : Exec σ ParseResult))
        (fun g s => Exec.lift (p g s)) (fun g s => Exec.lift (t g s)) k sp s =
      Exec.lift (Γ.operatorCall i p t k sp s) := by
  cases sp with
  | inherits _ | forwardRef _ | success | failure | token _ | undefined => rfl
  | anyChar => cases s <;> rfl
  | literal ch => cases s <;> simp only [operatorCall, Exec.lift_ite, Exec.lift_pure]
  | charFilter f => cases s <;> simp only [operatorCall, Exec.lift_ite, Exec.lift_pure]
  | charClass rules =>
      cases s <;> simp only [operatorCall, charClassTester_lift, Exec.lift_bind, Exec.lift_ite,
        Exec.lift_pure, Exec.lift_fault]
  | concat _ _ | either _ _ | unless_ _ _ | force _ =>
      simp only [operatorCall, Exec.lift_bind, Exec.lift_ite, Exec.lift_pure]
  | repeat_ g => exact repeatLoop_lift _ k s
  | repeatAndThen repeated rest size =>
      simp only [operatorCall, climb_lift, Exec.lift_bind]
      congr 1
      funext out
      cases out with
      | inl result => rfl
      | inr prior => exact fallBack_lift _ s prior

variable (Γ : Env ρ φ κ) (V : Visitors ρ φ κ ν σ)

private theorem parse_parser_none_eq (n : ℕ) :
    (∀ g s, parse Γ V n none g s = Exec.lift (parse Γ (noVisitors ρ φ κ) n none g s)) ∧
      ∀ g s, parser Γ V n none g s = Exec.lift (parser Γ (noVisitors ρ φ κ) n none g s) := by
  induction n with
  | zero => exact ⟨fun _ _ => rfl, fun _ _ => rfl⟩
  | succ n ih =>
      obtain ⟨hp, hq⟩ := ih
      refine ⟨fun g s => by simp only [parse, hq], fun g s => ?_⟩
      simp only [parser]
      rw [← Γ.operatorCall_lift]
      simp only [← hp, ← hq]

/-- A parse without a visitor leaves every state alone. -/
theorem parse_none_eq (n : ℕ) (g : Rule ρ φ) (s : List κ) :
    parse Γ V n none g s = Exec.lift (parse Γ (noVisitors ρ φ κ) n none g s) :=
  (parse_parser_none_eq Γ V n).1 g s

theorem parser_none_eq (n : ℕ) (g : Rule ρ φ) (s : List κ) :
    parser Γ V n none g s = Exec.lift (parser Γ (noVisitors ρ φ κ) n none g s) :=
  (parse_parser_none_eq Γ V n).2 g s

end Lift

end Hittop
