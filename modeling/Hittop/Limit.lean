/-
**The outcome of a run with enough fuel.**

A run that is given more and more fuel settles on one outcome, which is `outOfFuel` only if it never
ends.  This outcome satisfies the equations one reads off the source: it is computed from the
outcomes of the calls, with no fuel in sight, and a loop is unrolled once at a time.

Main definitions:

* `Hittop.Exec.limit` — what a run settles on;
* `Hittop.outcome`, `Hittop.parserOutcome` — the outcomes of `Parse` and `Parser`.

Main results:

* `Hittop.Exec.limit_bind` — sequencing commutes with settling;
* `Hittop.repeats_eq`, `Hittop.climbs_cons` — the loops, unrolled once;
* `Hittop.parserOutcome_eq` — the outcome of `operator()`;
* `Hittop.outcome_none`, `Hittop.outcome_some_of_none`, `Hittop.outcome_some_of_body` — `Parse`
  without a visitor, and with one that is or is not callable with the rule.
-/

import Hittop.Fuel

set_option relaxedAutoImplicit false
set_option autoImplicit false

namespace Hittop

namespace Exec

variable {σ α β : Type}

/-! ### Settling -/

/-- Runs with more and more fuel. -/
def Chain (x : ℕ → Exec σ α) : Prop := ∀ n m, n ≤ m → Below (x n) (x m)

open Classical in
/-- What a sequence of outcomes settles on. -/
noncomputable def settle (u : ℕ → Except Fault (α × σ)) : Except Fault (α × σ) :=
  if h : ∃ n, u n ≠ .error .outOfFuel then u (choose h) else .error .outOfFuel

/-- What the runs of a chain settle on. -/
noncomputable def limit (x : ℕ → Exec σ α) : Exec σ α := fun st => settle fun n => x n st

/-- What a run settles on in a state depends on the runs in that state only. -/
theorem limit_congr {x y : ℕ → Exec σ α} {st : σ} (h : ∀ n, x n st = y n st) :
    limit x st = limit y st := congrArg settle (funext h)

theorem Chain.eventually {x : ℕ → Exec σ α} (hx : Chain x) (st : σ) :
    ∃ N, ∀ n, N ≤ n → x n st = limit x st := by
  by_cases h : ∃ n, x n st ≠ .error .outOfFuel
  · refine ⟨Classical.choose h, fun n hn => ?_⟩
    rw [limit, settle, dif_pos h]
    exact (hx _ n hn).eq_of_ne (Classical.choose_spec h)
  · refine ⟨0, fun n _ => ?_⟩
    rw [limit, settle, dif_neg h]
    exact not_not.1 (not_exists.1 h n)

theorem Chain.limit_eq {x : ℕ → Exec σ α} (hx : Chain x) {st : σ}
    {o : Except Fault (α × σ)} (h : ∃ N, ∀ n, N ≤ n → x n st = o) : limit x st = o := by
  obtain ⟨N, hN⟩ := h
  obtain ⟨N', hN'⟩ := hx.eventually st
  rw [← hN' (max N N') (Nat.le_max_right _ _), hN _ (Nat.le_max_left _ _)]

/-- One run that ends decides. -/
theorem Chain.limit_of_ne {x : ℕ → Exec σ α} (hx : Chain x) {st : σ} {n : ℕ}
    (h : x n st ≠ .error .outOfFuel) : limit x st = x n st :=
  hx.limit_eq ⟨n, fun m hm => (hx n m hm).eq_of_ne h⟩

theorem Chain.limit_ok_iff {x : ℕ → Exec σ α} (hx : Chain x) {st : σ} {p : α × σ} :
    limit x st = .ok p ↔ ∃ n, x n st = .ok p := by
  constructor
  · intro h
    obtain ⟨N, hN⟩ := hx.eventually st
    exact ⟨N, (hN N (Nat.le_refl _)).trans h⟩
  · rintro ⟨n, hn⟩
    rw [hx.limit_of_ne (n := n) (by rw [hn]; simp), hn]

/-- What every run of a chain returns, it settles on. -/
theorem Chain.limit_ok_of_forall {x : ℕ → Exec σ α} (hx : Chain x) {P : α → Prop}
    (h : ∀ n st a st', x n st = .ok (a, st') → P a) {st st' : σ} {a : α}
    (ha : limit x st = .ok (a, st')) : P a := by
  obtain ⟨n, hn⟩ := hx.limit_ok_iff.1 ha
  exact h n st a st' hn

theorem chain_const (x : Exec σ α) : Chain fun _ => x := fun _ _ _ => Below.refl x

theorem Chain.shift {x : ℕ → Exec σ α} (hx : Chain x) : Chain fun n => x (n + 1) :=
  fun _ _ h => hx _ _ (Nat.succ_le_succ h)

theorem Chain.bind {x : ℕ → Exec σ α} {f : ℕ → α → Exec σ β} (hx : Chain x)
    (hf : ∀ a, Chain fun n => f n a) : Chain fun n => x n >>= f n :=
  fun n m h => (hx n m h).bind fun a => hf a n m h

theorem Chain.bind_const {x : ℕ → Exec σ α} (hx : Chain x) (f : α → Exec σ β) :
    Chain fun n => x n >>= f := hx.bind fun a => chain_const (f a)

theorem Chain.ite {p : Prop} [Decidable p] {x y : ℕ → Exec σ α} (hx : Chain x) (hy : Chain y) :
    Chain fun n => if p then x n else y n := fun n m h => (hx n m h).ite (hy n m h)

@[simp] theorem limit_const (x : Exec σ α) : limit (fun _ => x) = x := by
  funext st
  exact (chain_const x).limit_eq ⟨0, fun _ _ => rfl⟩

theorem limit_shift {x : ℕ → Exec σ α} (hx : Chain x) : limit (fun n => x (n + 1)) = limit x := by
  funext st
  obtain ⟨N, hN⟩ := hx.eventually st
  exact hx.shift.limit_eq ⟨N, fun n hn => hN (n + 1) (by omega)⟩

/-- Sequencing commutes with settling. -/
theorem limit_bind {x : ℕ → Exec σ α} {f : ℕ → α → Exec σ β} (hx : Chain x)
    (hf : ∀ a, Chain fun n => f n a) :
    limit (fun n => x n >>= f n) = limit x >>= fun a => limit fun n => f n a := by
  funext st
  refine (hx.bind hf).limit_eq ?_
  obtain ⟨N, hN⟩ := hx.eventually st
  cases hlim : limit x st with
  | error e =>
      refine ⟨N, fun n hn => ?_⟩
      rw [bind_of_error hlim, bind_of_error ((hN n hn).trans hlim)]
  | ok p =>
      obtain ⟨a, st₁⟩ := p
      obtain ⟨N', hN'⟩ := (hf a).eventually st₁
      refine ⟨max N N', fun n hn => ?_⟩
      rw [bind_of_ok hlim, bind_of_ok ((hN n (by omega)).trans hlim)]
      exact hN' n (by omega)

theorem limit_bind_const {x : ℕ → Exec σ α} (hx : Chain x) (f : α → Exec σ β) :
    limit (fun n => x n >>= f) = limit x >>= f := by
  rw [limit_bind hx fun a => chain_const (f a)]
  simp only [limit_const]

theorem limit_ite {p : Prop} [Decidable p] {x y : ℕ → Exec σ α} :
    limit (fun n => if p then x n else y n) = if p then limit x else limit y := by
  by_cases hp : p <;> simp [hp]

/-- Two bounds on the fuel that grow together settle like one inside the other. -/
theorem limit_diag {x : ℕ → ℕ → Exec σ α} (hl : ∀ k, Chain fun n => x n k)
    (hr : ∀ n, Chain fun k => x n k) :
    limit (fun n => x n n) = limit fun k => limit fun n => x n k := by
  have hd : Chain fun n => x n n := by
    intro n m h st
    rcases hl n n m h st with h₁ | h₁
    · exact Or.inl h₁
    · rcases hr m n m h st with h₂ | h₂
      · exact Or.inl (h₁.symm.trans h₂)
      · exact Or.inr (h₂.trans h₁)
  have hlim : Chain fun k => limit fun n => x n k := by
    intro k k' h st
    obtain ⟨N, hN⟩ := (hl k).eventually st
    obtain ⟨N', hN'⟩ := (hl k').eventually st
    have h₁ := hN (max N N') (by omega)
    have h₂ := hN' (max N N') (by omega)
    simp only at h₁ h₂ ⊢
    rw [← h₁, ← h₂]
    exact hr _ k k' h st
  funext st
  by_cases hfuel : ∃ n, x n n st ≠ .error .outOfFuel
  · obtain ⟨n, hn⟩ := hfuel
    have hk : limit (fun m => x m n) st = x n n st := (hl n).limit_of_ne hn
    rw [hd.limit_of_ne hn, hlim.limit_of_ne (n := n) (by rw [hk]; exact hn), hk]
  · have hall : ∀ n k, x n k st = .error .outOfFuel := by
      intro n k
      by_contra hne
      refine hfuel ⟨max n k, ?_⟩
      have h₁ : x (max n k) k st = x n k st := (hl k n (max n k) (by omega)).eq_of_ne hne
      have h₂ : x (max n k) (max n k) st = x (max n k) k st :=
        (hr (max n k) k (max n k) (by omega)).eq_of_ne fun h => hne (h₁.symm.trans h)
      rw [h₂, h₁]
      exact hne
    rw [hd.limit_eq ⟨0, fun n _ => hall n n⟩]
    exact (hlim.limit_eq ⟨0, fun k _ => (hl k).limit_eq ⟨0, fun n _ => hall n k⟩⟩).symm

end Exec

open Exec

/-! ### Loops without fuel -/

section Loops

variable {ρ φ κ σ : Type}

/-- `repeatLoop` with enough fuel. -/
noncomputable def repeats (p : List κ → Exec σ ParseResult) (s : List κ) : Exec σ ParseResult :=
  limit fun k => repeatLoop p k s

/-- `climb` with enough fuel. -/
noncomputable def climbs (p : List κ → Exec σ ParseResult) (size : ℕ) (s : List κ)
    (prior : List ℕ) : Exec σ (ParseResult ⊕ List ℕ) :=
  limit fun k => climb p size s k prior

theorem repeatLoop_chain (p : List κ → Exec σ ParseResult) (s : List κ) :
    Chain fun k => repeatLoop p k s := fun _ _ h => repeatLoop_below (fun _ => Below.refl _) s h

theorem climb_chain (p : List κ → Exec σ ParseResult) (size : ℕ) (s : List κ) (prior : List ℕ) :
    Chain fun k => climb p size s k prior :=
  fun _ _ h => climb_below (fun _ => Below.refl _) size s prior h

/-- The loop of `Repeat`, unrolled once. -/
theorem repeats_eq (p : List κ → Exec σ ParseResult) (s : List κ) :
    repeats p s = (do
      let result ← p s
      if result.ok then
        if result.pos = 0 then pure (.success 0)
        else do
          let rest ← repeats p (s.drop result.pos)
          pure (rest.advance result.pos)
      else if result.error = .incomplete then pure result
      else pure (.success 0)) := by
  rw [repeats, ← limit_shift (repeatLoop_chain p s)]
  simp only [repeatLoop]
  rw [limit_bind (chain_const _) fun r => Chain.ite (Chain.ite (chain_const _)
    ((repeatLoop_chain p _).bind_const _)) (chain_const _), limit_const]
  refine congrArg (p s >>= ·) (funext fun r => ?_)
  rw [limit_ite, limit_ite, limit_const, limit_const, limit_bind_const (repeatLoop_chain p _)]
  rfl

/-- The first loop of `RepeatAndThen`, unrolled once. -/
theorem climbs_cons (p : List κ → Exec σ ParseResult) (size : ℕ) (s : List κ) (back : ℕ)
    (older : List ℕ) :
    climbs p size s (back :: older) = (do
      let result ← p (s.drop back)
      if result.ok then
        if result.pos = 0 then pure (.inr (back :: older))
        else climbs p size s (((back + result.pos) :: back :: older).take size)
      else if result.error = .incomplete then pure (.inl (result.advance back))
      else pure (.inr (back :: older))) := by
  rw [climbs, ← limit_shift (climb_chain p size s _)]
  simp only [climb]
  rw [limit_bind (chain_const _) fun r => Chain.ite
    (Chain.ite (chain_const _) (climb_chain p size s _)) (chain_const _), limit_const]
  refine congrArg (p _ >>= ·) (funext fun r => ?_)
  rw [limit_ite, limit_ite, limit_const, limit_const]
  rfl

theorem climbs_nil (p : List κ → Exec σ ParseResult) (size : ℕ) (s : List κ) :
    climbs p size s [] = Exec.fault .emptyBuffer := by
  rw [climbs, ← limit_shift (climb_chain p size s _)]
  exact limit_const _

theorem repeatLoop_limit {p : ℕ → List κ → Exec σ ParseResult} (hp : ∀ s, Chain fun n => p n s)
    (k : ℕ) (s : List κ) :
    limit (fun n => repeatLoop (p n) k s) = repeatLoop (fun s => limit fun n => p n s) k s := by
  induction k generalizing s with
  | zero => exact limit_const _
  | succ k ih =>
      have hloop : ∀ s, Chain fun n => repeatLoop (p n) k s :=
        fun s n m h => repeatLoop_below (fun s => hp s n m h) s (Nat.le_refl _)
      simp only [repeatLoop]
      rw [limit_bind (hp s) fun r => Chain.ite (Chain.ite (chain_const _)
        ((hloop _).bind_const _)) (chain_const _)]
      refine congrArg (limit (fun n => p n s) >>= ·) (funext fun r => ?_)
      rw [limit_ite, limit_ite, limit_const, limit_const, limit_bind_const (hloop _), ih]

theorem climb_limit {p : ℕ → List κ → Exec σ ParseResult} (hp : ∀ s, Chain fun n => p n s)
    (size : ℕ) (s : List κ) (k : ℕ) (prior : List ℕ) :
    limit (fun n => climb (p n) size s k prior) =
      climb (fun s => limit fun n => p n s) size s k prior := by
  induction k generalizing prior with
  | zero => exact limit_const _
  | succ k ih =>
      cases prior with
      | nil => exact limit_const _
      | cons back older =>
          have hclimb : ∀ prior, Chain fun n => climb (p n) size s k prior :=
            fun prior n m h => climb_below (fun s => hp s n m h) size s prior (Nat.le_refl _)
          simp only [climb]
          rw [limit_bind (hp _) fun r => Chain.ite (Chain.ite (chain_const _) (hclimb _))
            (chain_const _)]
          refine congrArg (limit (fun n => p n _) >>= ·) (funext fun r => ?_)
          rw [limit_ite, limit_ite, limit_const, limit_const, ih]

theorem fallBack_limit {p : ℕ → List κ → Exec σ ParseResult} (hp : ∀ s, Chain fun n => p n s)
    (s : List κ) : ∀ prior : List ℕ,
      limit (fun n => fallBack (p n) s prior) = fallBack (fun s => limit fun n => p n s) s prior
  | [] => limit_const _
  | [back] => by
      simp only [fallBack]
      rw [limit_bind_const (hp _)]
  | back :: older :: rest => by
      have hrest : Chain fun n => fallBack (p n) s (older :: rest) :=
        fun n m h => fallBack_below (fun s => hp s n m h) s _
      simp only [fallBack]
      rw [limit_bind (hp _) fun r => Chain.ite (chain_const _) (Chain.ite (chain_const _) hrest)]
      refine congrArg (limit (fun n => p n _) >>= ·) (funext fun r => ?_)
      rw [limit_ite, limit_ite, limit_const, fallBack_limit hp s (older :: rest)]

theorem charClassTester_limit {p : ℕ → Rule ρ φ → List κ → Exec σ ParseResult}
    (hp : ∀ g s, Chain fun n => p n g s) (c : κ) (rules : List (Rule ρ φ)) :
    limit (fun n => charClassTester (p n) c rules) =
      charClassTester (fun g s => limit fun n => p n g s) c rules := by
  induction rules with
  | nil => exact limit_const _
  | cons first rest ih =>
      have hrest : Chain fun n => charClassTester (p n) c rest :=
        fun n m h => charClassTester_below (fun g s => hp g s n m h) c rest
      simp only [charClassTester]
      rw [limit_bind (hp _ _) fun r => Chain.ite (chain_const _) hrest]
      refine congrArg (limit (fun n => p n _ _) >>= ·) (funext fun r => ?_)
      rw [limit_ite, limit_const, ih]

end Loops

/-- `operator()` of the selected parser, its loops with enough fuel. -/
noncomputable def Env.operatorOutcome {ρ φ κ σ : Type} (Γ : Env ρ φ κ)
    (inherited parse table : Rule ρ φ → List κ → Exec σ ParseResult) :
    Special ρ φ → List κ → Exec σ ParseResult
  | .repeat_ g, s => repeats (parse g) s
  | .repeatAndThen repeated rest size, s => do
      match ← climbs (parse repeated) size s ([0].take size) with
      | .inl result => pure result
      | .inr prior => fallBack (parse rest) s prior
  | sp, s => Γ.operatorCall inherited parse table 0 sp s

/-! ### The outcomes of `Parse` and `Parser` -/

section Outcome

variable {ρ φ κ ν σ : Type} (Γ : Env ρ φ κ) (V : Visitors ρ φ κ ν σ)

/-- The outcome of `Parse<G>(s, args...)`. -/
noncomputable def outcome (args : Option ν) (g : Rule ρ φ) (s : List κ) : Exec σ ParseResult :=
  limit fun n => parse Γ V n args g s

/-- The outcome of `Parser<G>{}(s, args...)`. -/
noncomputable def parserOutcome (args : Option ν) (g : Rule ρ φ) (s : List κ) :
    Exec σ ParseResult := limit fun n => parser Γ V n args g s

theorem parse_chain (args : Option ν) (g : Rule ρ φ) (s : List κ) :
    Chain fun n => parse Γ V n args g s := fun _ _ h => parse_below Γ V h args g s

theorem parser_chain (args : Option ν) (g : Rule ρ φ) (s : List κ) :
    Chain fun n => parser Γ V n args g s := fun _ _ h => parser_below Γ V h args g s

variable {Γ V}

theorem outcome_ok_iff {args : Option ν} {g : Rule ρ φ} {s : List κ} {st : σ}
    {p : ParseResult × σ} :
    outcome Γ V args g s st = .ok p ↔ ∃ n, parse Γ V n args g s st = .ok p :=
  (parse_chain Γ V args g s).limit_ok_iff

theorem parses_iff {g : Rule ρ φ} {s : List κ} {r : ParseResult} :
    Parses Γ g s r ↔ outcome Γ (noVisitors ρ φ κ) none g s () = .ok (r, ()) :=
  outcome_ok_iff.symm

theorem visits_iff {v : ν} {g : Rule ρ φ} {s : List κ} {st st' : σ} {r : ParseResult} :
    Visits Γ V v g s st r st' ↔ outcome Γ V (some v) g s st = .ok (r, st') :=
  outcome_ok_iff.symm

variable (Γ V)

theorem outcome_none (g : Rule ρ φ) (s : List κ) :
    outcome Γ V none g s = parserOutcome Γ V none (Γ.optimized g) s :=
  (limit_shift (parse_chain Γ V none g s)).symm

variable {Γ V} in
theorem outcome_some_of_none {v : ν} {g : Rule ρ φ} (h : V.operator v g = none) (s : List κ) :
    outcome Γ V (some v) g s = parserOutcome Γ V (some v) g s := by
  rw [outcome, ← limit_shift (parse_chain Γ V (some v) g s)]
  simp only [parse, h]
  rfl

theorem runBody_limit {run : ℕ → Option ν → Exec σ ParseResult}
    (h : ∀ args, Chain fun n => run n args) (s : List κ) (body : Body κ ν σ)
    (result : Option ParseResult) :
    limit (fun n => runBody (run n) s body result) =
      runBody (fun args => limit fun n => run n args) s body result := by
  have hchain : Chain fun n => runBody (run n) s body result :=
    fun n m hnm => runBody_below (fun args => h args n m hnm) s body result
  induction body generalizing result with
  | done st => exact limit_const _
  | throw e => exact limit_const _
  | run copy args st next ih =>
      funext st₀
      refine hchain.limit_eq ?_
      obtain ⟨N, hN⟩ := (h args).eventually st
      cases hlim : limit (fun n => run n args) st with
      | error e => exact ⟨N, fun n hn => by simp only [runBody, hlim, (hN n hn).trans hlim]⟩
      | ok p =>
          obtain ⟨r, st'⟩ := p
          have hrest := fun n m (hnm : n ≤ m) => runBody_below (fun args => h args n m hnm) s
            (next ⟨s.take r.pos, r.error⟩ st') (if copy then result else some r)
          obtain ⟨N', hN'⟩ := Chain.eventually hrest st'
          rw [ih _ _ _ hrest] at hN'
          refine ⟨max N N', fun n hn => ?_⟩
          simp only [runBody, hlim, (hN n (by omega)).trans hlim]
          exact hN' n (by omega)

variable {Γ V} in
theorem outcome_some_of_body {v : ν} {g : Rule ρ φ} {body : σ → Body κ ν σ}
    (h : V.operator v g = some body) (s : List κ) (st : σ) :
    outcome Γ V (some v) g s st =
      (runBody (fun args => outcome Γ V args g s) s (body st) none >>=
        consume (outcome Γ V none g s)) st := by
  have hrun : ∀ args, Chain fun n => parse Γ V n args g s := fun args => parse_chain Γ V args g s
  have hconsume : ∀ result : Option ParseResult,
      Chain fun n => consume (parse Γ V n none g s) result := by
    intro result
    cases result with
    | none => exact hrun none
    | some r => exact chain_const _
  rw [outcome, ← limit_shift (parse_chain Γ V (some v) g s)]
  have hstep : (fun n => parse Γ V (n + 1) (some v) g s) = fun n st =>
      (runBody (fun args => parse Γ V n args g s) s (body st) none >>=
        consume (parse Γ V n none g s)) st := by
    funext n
    simp only [parse, h]
  have hlim := limit_bind (fun n m hnm => runBody_below (fun args => hrun args n m hnm) s (body st)
    none) hconsume
  rw [runBody_limit hrun] at hlim
  have hcons : (fun result => limit fun n => consume (parse Γ V n none g s) result) =
      consume (outcome Γ V none g s) := by
    funext result
    cases result with
    | none => rfl
    | some r => exact limit_const _
  rw [hcons] at hlim
  rw [hstep]
  exact (limit_congr fun n => rfl).trans (congrFun hlim st)

/-- The outcome of `operator()` for the parsers that have no loop. -/
theorem parserOutcome_of_loopless (args : Option ν) (g : Rule ρ φ) (s : List κ)
    (hrepeat : ∀ g', Γ.special g ≠ .repeat_ g')
    (hthen : ∀ a b size, Γ.special g ≠ .repeatAndThen a b size) :
    parserOutcome Γ V args g s = Γ.operatorCall (parserOutcome Γ V args) (outcome Γ V args)
      (parserOutcome Γ V none) 0 (Γ.special g) s := by
  have hp := fun g s => parse_chain Γ V args g s
  rw [parserOutcome, ← limit_shift (parser_chain Γ V args g s)]
  simp only [parser]
  -- one step of fuel less for the calls: the limit goes past each of them
  cases hsp : Γ.special g with
  | inherits base => rfl
  | forwardRef m => rfl
  | success => exact limit_const _
  | failure => exact limit_const _
  | anyChar => cases s <;> exact limit_const _
  | literal ch => cases s <;> exact limit_const _
  | charFilter f => cases s <;> exact limit_const _
  | charClass rules =>
      cases s with
      | nil => exact limit_const _
      | cons c s =>
          have hq := fun g s => parser_chain Γ V none g s
          simp only [Env.operatorCall]
          rw [limit_ite, limit_const]
          refine congrArg (ite _ · _) ?_
          rw [limit_bind_const fun n m h => charClassTester_below (fun g s => hq g s n m h) c rules,
            charClassTester_limit hq]
          rfl
  | token get => exact limit_const _
  | concat first second =>
      simp only [Env.operatorCall]
      rw [limit_bind (hp _ _) fun r => Chain.ite ((hp _ _).bind_const _) (chain_const _)]
      refine congrArg (outcome Γ V args first s >>= ·) (funext fun r => ?_)
      rw [limit_ite, limit_const, limit_bind_const (hp _ _)]
      rfl
  | either first second =>
      simp only [Env.operatorCall]
      rw [limit_bind (hp _ _) fun r => Chain.ite (chain_const _) (hp _ _)]
      refine congrArg (outcome Γ V args first s >>= ·) (funext fun r => ?_)
      rw [limit_ite, limit_const]
      rfl
  | unless_ reject default =>
      simp only [Env.operatorCall]
      rw [limit_bind (hp _ _) fun r => Chain.ite (chain_const _)
        (Chain.ite (chain_const _) (hp _ _))]
      refine congrArg (outcome Γ V args reject s >>= ·) (funext fun r => ?_)
      rw [limit_ite, limit_ite, limit_const, limit_const]
      rfl
  | repeat_ g' => exact absurd hsp (hrepeat g')
  | repeatAndThen a b size => exact absurd hsp (hthen a b size)
  | force g' =>
      simp only [Env.operatorCall]
      rw [limit_bind_const (hp _ _)]
      rfl
  | undefined => exact limit_const _

variable {Γ V}

/-- The outcome of a `Repeat`. -/
theorem parserOutcome_repeat {args : Option ν} {g g' : Rule ρ φ} (h : Γ.special g = .repeat_ g')
    (s : List κ) : parserOutcome Γ V args g s = repeats (outcome Γ V args g') s := by
  rw [parserOutcome, ← limit_shift (parser_chain Γ V args g s)]
  simp only [parser, h, Env.operatorCall]
  rw [limit_diag (x := fun n k => repeatLoop (parse Γ V n args g') k s)]
  · simp only [repeatLoop_limit fun s => parse_chain Γ V args g' s]
    rfl
  · exact fun k n m hnm => repeatLoop_below (fun s => parse_chain Γ V args g' s n m hnm) s
      (Nat.le_refl _)
  · exact fun n => repeatLoop_chain _ s

/-- The outcome of a `RepeatAndThen`. -/
theorem parserOutcome_repeatAndThen {args : Option ν} {g a b : Rule ρ φ} {size : ℕ}
    (h : Γ.special g = .repeatAndThen a b size) (s : List κ) :
    parserOutcome Γ V args g s = (do
      match ← climbs (outcome Γ V args a) size s ([0].take size) with
      | .inl result => pure result
      | .inr prior => fallBack (outcome Γ V args b) s prior) := by
  have ha := fun s => parse_chain Γ V args a s
  have hb := fun s => parse_chain Γ V args b s
  rw [parserOutcome, ← limit_shift (parser_chain Γ V args g s)]
  simp only [parser, h, Env.operatorCall]
  rw [limit_bind (fun n m hnm => climb_below (fun s => ha s n m hnm) size s _ hnm)
    (fun out => ?_)]
  · rw [limit_diag (x := fun n k => climb (parse Γ V n args a) size s k ([0].take size))]
    · simp only [climb_limit ha]
      refine congrArg (climbs (outcome Γ V args a) size s ([0].take size) >>= ·)
        (funext fun out => ?_)
      cases out with
      | inl r => exact limit_const _
      | inr prior => exact fallBack_limit hb s prior
    · exact fun k n m hnm => climb_below (fun s => ha s n m hnm) size s _ (Nat.le_refl _)
    · exact fun n => climb_chain _ size s _
  · cases out with
    | inl r => exact chain_const _
    | inr prior => exact fun n m hnm => fallBack_below (fun s => hb s n m hnm) s prior

/-- **The outcome of `Parser`** is that of `operator()`, computed from the outcomes of its calls. -/
theorem parserOutcome_eq (args : Option ν) (g : Rule ρ φ) (s : List κ) :
    parserOutcome Γ V args g s = Γ.operatorOutcome (parserOutcome Γ V args) (outcome Γ V args)
      (parserOutcome Γ V none) (Γ.special g) s := by
  cases hsp : Γ.special g with
  | repeat_ g' => exact parserOutcome_repeat hsp s
  | repeatAndThen a b size => exact parserOutcome_repeatAndThen hsp s
  | _ => rw [parserOutcome_of_loopless Γ V args g s (by simp [hsp]) (by simp [hsp]), hsp]; rfl

end Outcome

end Hittop
