/-
**Visitors that record what a rule accepted.**

Almost every visitor is of one form: it calls its runner once, does something with the text that was
accepted, and something else when the parse failed.  The verdict of the rule is then that of the
call, and the state is known from the verdict and the text.  This module states that once, together
with the loop of a `Repeat` whose body has effects, and with visitors that hold a pointer into a
larger state.

Main definitions:

* `Hittop.Body.call` — call the runner once, and go on according to the result;
* `Hittop.Meaning.finish` — what such a visitor makes of the verdicts of its call;
* `Hittop.Meaning.loop` — the loop of a `Repeat`;
* `Hittop.Pointer`, `Hittop.Meaning.through` — a part of a state, and a parse that works on it.

Main results:

* `Hittop.meaning_call`, `Hittop.meaning_callCopy` — the verdicts of a rule such a visitor is called
  with;
* `Hittop.parserMeaning_loop` — a `Repeat` is a loop;
* `Hittop.Meaning.through_seq`, … — a pointer goes through the combinators.
-/

import Hittop.Denotation

set_option relaxedAutoImplicit false
set_option autoImplicit false

namespace Hittop

open Exec

variable {ρ φ κ ν σ α : Type}

/-! ### One call of the runner -/

/-- `auto result = run_parser(args...); if (result.ok()) accepted(result.get()); else failed();` -/
def Body.call (copy : Bool) (args : Option ν) (accepted : List κ → σ → Except Fault σ)
    (failed : σ → σ) (st : σ) : Body κ ν σ :=
  .run copy args st fun result st' =>
    if result.ok then
      match accepted result.get st' with
      | .ok st'' => .done st''
      | .error e => .throw e
    else .done (failed st')

/-- Change the state according to the verdict. -/
def Meaning.finish (accepted : List κ → σ → Except Fault σ) (failed : σ → σ) (m : Meaning κ σ) :
    Meaning κ σ := fun s => do
  match ← m s with
  | .accept n => fun st => (accepted (s.take n) st).map fun st' => (.accept n, st')
  | v => fun st => .ok (v, failed st)

/-- The parse of a visitor with variables of its own: what it does at the end refers to the state at
the beginning. -/
def Meaning.locally (before : σ → σ) (accepted : σ → List κ → σ → Except Fault σ)
    (failed : σ → σ → σ) (m : Meaning κ σ) : Meaning κ σ :=
  fun s st => m.finish (accepted st) (failed st) s (before st)

section Call

variable {Γ : Env ρ φ κ} {V : Visitors ρ φ κ ν σ} {v : ν} {g : Rule ρ φ}

/-- Running the body of a visitor that calls its runner once. -/
theorem runBody_call {runner : Option ν → Exec σ ParseResult} {s : List κ} {copy : Bool}
    {args : Option ν} {accepted : List κ → σ → Except Fault σ} {failed : σ → σ} {st : σ}
    (st₀ : σ) :
    runBody runner s (.call copy args accepted failed st) none st₀ =
      match runner args st with
      | .error e => .error e
      | .ok (r, st') =>
          if r.ok then (accepted (s.take r.pos) st').map fun st'' =>
            (if copy then none else some r, st'')
          else .ok (if copy then none else some r, failed st') := by
  simp only [Body.call, runBody]
  cases runner args st with
  | error e => rfl
  | ok p =>
      obtain ⟨r, st'⟩ := p
      have hok : (RangeResult.mk (s.take r.pos) r.error).ok = r.ok := rfl
      by_cases hr : r.ok = true
      · simp only [hok, hr, if_true]
        cases accepted (s.take r.pos) st' <;> rfl
      · simp only [hok, hr]
        rfl

variable {args : Option ν} {before : σ → σ} {accepted : σ → List κ → σ → Except Fault σ}
  {failed : σ → σ → σ}

/-- **A visitor that calls its runner once** gets and gives the verdict of that call. -/
theorem meaning_call
    (h : V.operator v g = some fun st => .call false args (accepted st) (failed st) (before st))
    (s : List κ) (st : σ) :
    meaning Γ V (some v) g s st =
      (meaning Γ V args g).finish (accepted st) (failed st) s (before st) := by
  rw [meaning, Exec.verdict, bind_eq, outcome_some_of_body h, bind_eq, runBody_call]
  rw [Meaning.finish, meaning, Exec.verdict, bind_assoc, bind_eq]
  cases outcome Γ V args g s (before st) with
  | error e => rfl
  | ok p =>
      obtain ⟨r, st'⟩ := p
      rcases r.verdict_cases with ⟨n, rfl⟩ | ⟨hok, -, hv⟩ | ⟨hok, -, hv⟩
      · simp only [ParseResult.success_ok, if_true, ParseResult.success_pos, pure_bind,
          ParseResult.verdict_success]
        cases accepted st (s.take n) st' <;> rfl
      · simp only [hok, hv, pure_bind, Bool.false_eq_true, if_false, consume, pure_apply]
      · simp only [hok, hv, pure_bind, Bool.false_eq_true, if_false, consume, pure_apply]

theorem meaning_call_locally
    (h : V.operator v g = some fun st => .call false args (accepted st) (failed st) (before st)) :
    meaning Γ V (some v) g = (meaning Γ V args g).locally before accepted failed := by
  funext s st
  exact meaning_call h s st

/-- A visitor that calls a copy of its runner leaves the verdict to the parse without visitors. -/
theorem meaning_callCopy
    (h : V.operator v g = some fun st => .call true args (accepted st) (failed st) (before st))
    (s : List κ) (st : σ) :
    meaning Γ V (some v) g s st =
      ((meaning Γ V args g).finish (accepted st) (failed st) s >>= fun _ => meaning Γ V none g s)
        (before st) := by
  rw [meaning, Exec.verdict, bind_eq, outcome_some_of_body h, bind_eq, runBody_call]
  rw [Meaning.finish, meaning, Exec.verdict, bind_assoc, bind_assoc, bind_eq]
  cases outcome Γ V args g s (before st) with
  | error e => rfl
  | ok p =>
      obtain ⟨r, st'⟩ := p
      rcases r.verdict_cases with ⟨n, rfl⟩ | ⟨hok, -, hv⟩ | ⟨hok, -, hv⟩
      · simp only [ParseResult.success_ok, if_true, ParseResult.success_pos, pure_bind,
          ParseResult.verdict_success]
        rw [bind_eq]
        cases accepted st (s.take n) st' with
        | error e => rfl
        | ok st'' => simp only [Except.map, consume, meaning, Exec.verdict, bind_eq]
      · simp only [hok, hv, Bool.false_eq_true, if_false, bind_eq, if_true, consume, pure_apply,
          meaning, Exec.verdict]
      · simp only [hok, hv, Bool.false_eq_true, if_false, bind_eq, if_true, consume, pure_apply,
          meaning, Exec.verdict]

end Call

/-! ### Loops with effects -/

namespace Meaning

/-- No more is accepted than there is. -/
def Bounded (p : Meaning κ σ) : Prop := ∀ s st n st', p s st = .ok (.accept n, st') → n ≤ s.length

/-- At most `k` iterations of the loop. -/
def loopFrom (p : Meaning κ σ) : ℕ → Meaning κ σ
  | 0 => fun _ => pure (.accept 0)
  | k + 1 => turn p (loopFrom p k)

/-- The loop of a `Repeat`: as many times `p` as possible. -/
def loop (p : Meaning κ σ) : Meaning κ σ := fun s => loopFrom p (s.length + 1) s

theorem turn_congr {p X Y : Meaning κ σ} {s : List κ}
    (h : ∀ st n st', p s st = .ok (.accept (n + 1), st') →
      X (s.drop (n + 1)) = Y (s.drop (n + 1))) :
    turn p X s = turn p Y s := by
  funext st
  rw [turn, turn, bind_eq, bind_eq]
  cases hp : p s st with
  | error e => rfl
  | ok q =>
      obtain ⟨v, st'⟩ := q
      cases v with
      | accept n =>
          cases n with
          | zero => rfl
          | succ n => simp only [h st n st' hp]
      | incomplete => rfl
      | reject => rfl

/-- Whatever makes one turn of itself is the loop: each turn is on a shorter list. -/
theorem eq_loopFrom {p X : Meaning κ σ} (hp : Bounded p) (hX : X = turn p X) (k : ℕ) (s : List κ)
    (hk : s.length < k) : X s = loopFrom p k s := by
  induction k generalizing s with
  | zero => omega
  | succ k ih =>
      rw [hX, loopFrom]
      refine turn_congr fun st n st' h => ih _ ?_
      have hle := hp s st _ st' h
      rw [List.length_drop]
      omega

theorem eq_loop {p X : Meaning κ σ} (hp : Bounded p) (hX : X = turn p X) : X = loop p :=
  funext fun s => eq_loopFrom hp hX (s.length + 1) s (Nat.lt_succ_self _)

theorem loopFrom_eq {p : Meaning κ σ} (hp : Bounded p) {j k : ℕ} {s : List κ} (hj : s.length < j)
    (hk : s.length < k) : loopFrom p j s = loopFrom p k s := by
  induction j generalizing k s with
  | zero => omega
  | succ j ih =>
      obtain ⟨k, rfl⟩ : ∃ i, k = i + 1 := ⟨k - 1, by omega⟩
      rw [loopFrom, loopFrom]
      refine turn_congr fun st n st' h => ih ?_ ?_
      all_goals
        have hle := hp s st _ st' h
        rw [List.length_drop]
        omega

/-- **The equation of the loop.** -/
theorem loop_eq {p : Meaning κ σ} (hp : Bounded p) : loop p = turn p (loop p) := by
  funext s
  rw [loop, loopFrom]
  refine turn_congr fun st n st' h => loopFrom_eq hp ?_ (Nat.lt_succ_self _)
  have hle := hp s st _ st' h
  rw [List.length_drop]
  omega

end Meaning

section Loop

variable {Γ : Env ρ φ κ} {V : Visitors ρ φ κ ν σ} {args : Option ν} {g g' : Rule ρ φ}

theorem meaning_bounded : (meaning Γ V args g).Bounded := by
  intro s st n st' h
  obtain ⟨r, hr, hv⟩ := Exec.verdict_ok_iff.1 h
  have hle := (outcome_placed args g s st r st' hr).le
  rw [ParseResult.verdict_eq_accept.1 hv] at hle
  exact hle

/-- **A `Repeat` is a loop.** -/
theorem parserMeaning_loop (h : Γ.special g = .repeat_ g') :
    parserMeaning Γ V args g = Meaning.loop (meaning Γ V args g') :=
  Meaning.eq_loop meaning_bounded (parserMeaning_repeat h)

end Loop

/-! ### Rules that a visitor is not callable with -/

namespace Meaning

/-- `p`, where it does not reject. -/
def opt (p : Meaning κ σ) : Meaning κ σ := p.alt (lift .eps)

end Meaning

section Silent

variable {Γ : Env ρ φ κ} {V : Visitors ρ φ κ ν σ} {v : ν} {a b c : Rule ρ φ}
  {rest : List (Rule ρ φ)}

theorem meaning_some_pair (h : V.operator v (.concat [a, b]) = none) :
    meaning Γ V (some v) (.concat [a, b]) =
      (meaning Γ V (some v) a).seq (meaning Γ V (some v) b) := by
  rw [meaning_some h]
  exact parserMeaning_concat rfl

theorem meaning_some_concat (h : V.operator v (.concat (a :: b :: c :: rest)) = none) :
    meaning Γ V (some v) (.concat (a :: b :: c :: rest)) =
      (meaning Γ V (some v) a).seq (meaning Γ V (some v) (.concat (b :: c :: rest))) := by
  rw [meaning_some h]
  exact parserMeaning_concat rfl

theorem meaning_some_choice (h : V.operator v (.either [a, b]) = none) :
    meaning Γ V (some v) (.either [a, b]) =
      (meaning Γ V (some v) a).alt (meaning Γ V (some v) b) := by
  rw [meaning_some h]
  exact parserMeaning_either rfl

theorem meaning_some_either (h : V.operator v (.either (a :: b :: c :: rest)) = none) :
    meaning Γ V (some v) (.either (a :: b :: c :: rest)) =
      (meaning Γ V (some v) a).alt (meaning Γ V (some v) (.either (b :: c :: rest))) := by
  rw [meaning_some h]
  exact parserMeaning_either rfl

theorem meaning_some_opt (h : V.operator v (.opt a) = none)
    (hsuccess : V.operator v .success = none) :
    meaning Γ V (some v) (.opt a) = (meaning Γ V (some v) a).opt := by
  rw [meaning_some h, parserMeaning_inherits rfl, parserMeaning_either rfl, meaning_some hsuccess,
    parserMeaning_success rfl]
  rfl

theorem meaning_some_repeat (h : V.operator v (.repeat_ a) = none) :
    meaning Γ V (some v) (.repeat_ a) = (meaning Γ V (some v) a).loop := by
  rw [meaning_some h]
  exact parserMeaning_loop rfl

theorem meaning_some_impliedDelim {d : Rule ρ φ}
    (h : V.operator v (.impliedDelim d (a :: b :: rest)) = none)
    (hpair : V.operator v (.concat [d, .impliedDelim d (b :: rest)]) = none) :
    meaning Γ V (some v) (.impliedDelim d (a :: b :: rest)) =
      (meaning Γ V (some v) a).seq ((meaning Γ V (some v) d).seq
        (meaning Γ V (some v) (.impliedDelim d (b :: rest)))) := by
  rw [meaning_some h, parserMeaning_inherits rfl, ← meaning_some_pair hpair]
  exact parserMeaning_concat rfl

theorem meaning_some_singleton {d : Rule ρ φ} (h : V.operator v (.impliedDelim d [a]) = none)
    (ha : V.operator v a = none) :
    meaning Γ V (some v) (.impliedDelim d [a]) = meaning Γ V (some v) a := by
  rw [meaning_some h, meaning_some ha]
  exact parserMeaning_inherits rfl

theorem meaning_some_forwardRef {m : ρ} (h : V.operator v (.forwardRef m) = none) :
    meaning Γ V (some v) (.forwardRef m) = parserMeaning Γ V (some v) (Γ.type m) := by
  rw [meaning_some h]
  exact parserMeaning_forwardRef rfl

end Silent

/-! ### Parts of a state -/

/-- A pointer to a part of the state. -/
structure Pointer (σ α : Type) where
  get : σ → α
  set : α → σ → σ
  get_set : ∀ a st, get (set a st) = a
  set_set : ∀ a b st, set b (set a st) = set b st
  set_get : ∀ st, set (get st) st = st

namespace Pointer

attribute [simp] get_set set_set set_get

/-- The pointer to the whole state. -/
def self : Pointer σ σ := ⟨id, fun a _ => a, fun _ _ => rfl, fun _ _ _ => rfl, fun _ => rfl⟩

variable (p : Pointer σ α)

/-- Change the part. -/
def modify (f : α → α) (st : σ) : σ := p.set (f (p.get st)) st

/-- Change the part, or fail. -/
def tryModify (f : α → Except Fault α) (st : σ) : Except Fault σ :=
  (f (p.get st)).map fun a => p.set a st

end Pointer

namespace Exec

variable {β γ : Type}

/-- A run that works on a part of the state. -/
def through (p : Pointer σ α) (x : Exec α β) : Exec σ β := fun st =>
  match x (p.get st) with
  | .ok (b, a) => .ok (b, p.set a st)
  | .error e => .error e

theorem through_pure (p : Pointer σ α) (b : β) : through p (pure b) = pure b := by
  funext st
  simp [through]

theorem through_bind (p : Pointer σ α) (x : Exec α β) (f : β → Exec α γ) :
    through p (x >>= f) = through p x >>= fun b => through p (f b) := by
  funext st
  rw [bind_eq, through, bind_eq, through]
  cases x (p.get st) with
  | error e => rfl
  | ok q =>
      obtain ⟨b, a⟩ := q
      simp only [through, Pointer.get_set]
      cases f b a with
      | error e => rfl
      | ok q => simp

end Exec

namespace Meaning

/-- A parse that works on a part of the state. -/
def through (p : Pointer σ α) (m : Meaning κ α) : Meaning κ σ := fun s => Exec.through p (m s)

/-- A parse that starts after a change of the state. -/
def after (before : σ → σ) (m : Meaning κ σ) : Meaning κ σ := fun s st => m s (before st)

variable (p : Pointer σ α) (m m' : Meaning κ α)

@[simp] theorem through_self (m : Meaning κ σ) : through .self m = m := by
  funext s st
  simp only [through, Exec.through, Pointer.self, id]
  cases m s st <;> rfl

@[simp] theorem through_lift (f : Recognizer κ) : through p (lift f) = lift f := by
  funext s
  exact through_pure p (f s)

@[simp] theorem through_seq : through p (m.seq m') = (through p m).seq (through p m') := by
  funext s
  simp only [through, seq, through_bind]
  refine congrArg (Exec.through p (m s) >>= ·) (funext fun v => ?_)
  cases v <;> simp only [through_bind, through_pure]

@[simp] theorem through_alt : through p (m.alt m') = (through p m).alt (through p m') := by
  funext s
  simp only [through, alt, through_bind]
  refine congrArg (Exec.through p (m s) >>= ·) (funext fun v => ?_)
  cases v <;> simp only [through_pure]

@[simp] theorem through_turn : through p (m.turn m') = (through p m).turn (through p m') := by
  funext s
  simp only [through, turn, through_bind]
  refine congrArg (Exec.through p (m s) >>= ·) (funext fun v => ?_)
  cases v with
  | accept n => cases n <;> simp only [through_bind, through_pure]
  | incomplete => simp only [through_pure]
  | reject => simp only [through_pure]

@[simp] theorem through_opt : through p m.opt = (through p m).opt := by
  rw [opt, through_alt, through_lift]
  rfl

@[simp] theorem through_loop : through p m.loop = (through p m).loop := by
  have hfrom : ∀ k, through p (m.loopFrom k) = (through p m).loopFrom k := by
    intro k
    induction k with
    | zero => exact through_lift p .eps
    | succ k ih => rw [loopFrom, loopFrom, through_turn, ih]
  funext s
  exact congrFun (hfrom (s.length + 1)) s

theorem through_finish (accepted : List κ → α → Except Fault α) (failed : α → α) :
    through p (m.finish accepted failed) =
      (through p m).finish (fun text => p.tryModify (accepted text)) (p.modify failed) := by
  funext s
  simp only [through, finish, through_bind]
  refine congrArg (Exec.through p (m s) >>= ·) (funext fun v => ?_)
  funext st
  cases v with
  | accept n =>
      simp only [Exec.through, Pointer.tryModify]
      cases accepted (s.take n) (p.get st) <;> rfl
  | incomplete => rfl
  | reject => rfl

theorem through_after (before : α → α) :
    through p (m.after before) = (through p m).after (p.modify before) := by
  funext s st
  simp only [through, after, Exec.through, Pointer.modify, Pointer.get_set]
  cases m s (before (p.get st)) <;> simp

end Meaning

/-- A recognizer, and what is done with the text it accepts. -/
def Meaning.record (f : Recognizer κ) (part : List κ → σ → σ) : Meaning κ σ := fun s st =>
  .ok (f s, match f s with
    | .accept n => part (s.take n) st
    | _ => st)

section

variable {f : Recognizer κ} {part : List κ → σ → σ} {s : List κ}

theorem Meaning.record_of_accept {n : ℕ} (h : f s = .accept n) (st : σ) :
    record f part s st = .ok (.accept n, part (s.take n) st) := by
  rw [record, h]

theorem Meaning.record_of_incomplete (h : f s = .incomplete) (st : σ) :
    record f part s st = .ok (.incomplete, st) := by
  rw [record, h]

theorem Meaning.record_of_reject (h : f s = .reject) (st : σ) :
    record f part s st = .ok (.reject, st) := by
  rw [record, h]

end

theorem Meaning.finish_lift (f : Recognizer κ) (part : List κ → σ → σ) :
    (lift f : Meaning κ σ).finish (fun text st => .ok (part text st)) id = record f part := by
  funext s st
  simp only [finish, lift, pure_bind, record]
  cases f s <;> rfl

/-! ### Parses that leave a part of the state alone -/

/-- `p`, or `q` from the same state where `p` rejects: what `p` has done is undone. -/
def Meaning.orElse (p q : Meaning κ σ) : Meaning κ σ := fun s st =>
  match p s st with
  | .ok (.reject, _) => q s st
  | outcome => outcome

/-- Every run has the verdict of `f` and leaves the part `get` of the state alone. -/
def Silent {β : Type} (get : σ → β) (m : Meaning κ σ) (f : Recognizer κ) : Prop :=
  ∀ s st, ∃ st', m s st = .ok (f s, st') ∧ get st' = get st

namespace Silent

open Meaning

variable {β : Type} {get : σ → β} {m m' : Meaning κ σ} {f f' : Recognizer κ}

theorem lift (f : Recognizer κ) : Silent get (Meaning.lift f) f := fun _ st => ⟨st, rfl, rfl⟩

theorem record {part : List κ → σ → σ} (h : ∀ text st, get (part text st) = get st) :
    Silent get (Meaning.record f part) f := by
  intro s st
  refine ⟨_, rfl, ?_⟩
  cases f s with
  | accept n => exact h _ st
  | incomplete => rfl
  | reject => rfl

/-- What follows a parse of known outcome. -/
theorem seq_run (h' : Silent get m' f') {s : List κ} {st st₁ : σ} (hm : m s st = .ok (f s, st₁)) :
    ∃ st', m.seq m' s st = .ok (f.seq f' s, st') ∧ get st' = get st₁ := by
  cases hf : f s with
  | accept n =>
      rw [hf] at hm
      obtain ⟨st', hm', hget⟩ := h' (s.drop n) st₁
      exact ⟨st', by rw [seq_ok hm hm', Recognizer.seq_of_accept hf], hget⟩
  | incomplete =>
      rw [hf] at hm
      exact ⟨st₁, by rw [seq_of_incomplete hm, Recognizer.seq_of_incomplete hf], rfl⟩
  | reject =>
      rw [hf] at hm
      exact ⟨st₁, by rw [seq_of_reject hm, Recognizer.seq_of_reject hf], rfl⟩

theorem seq (h : Silent get m f) (h' : Silent get m' f') : Silent get (m.seq m') (f.seq f') := by
  intro s st
  obtain ⟨st₁, hm, hget⟩ := h s st
  obtain ⟨st', hseq, hget'⟩ := h'.seq_run hm
  exact ⟨st', hseq, hget'.trans hget⟩

theorem alt (h : Silent get m f) (h' : Silent get m' f') : Silent get (m.alt m') (f.alt f') := by
  intro s st
  obtain ⟨st₁, hm, hget⟩ := h s st
  cases hf : f s with
  | accept n =>
      rw [hf] at hm
      exact ⟨st₁, by rw [alt_of_accept hm, Recognizer.alt_of_ne_reject (by simp [hf]), hf], hget⟩
  | incomplete =>
      rw [hf] at hm
      exact ⟨st₁, by rw [alt_of_incomplete hm, Recognizer.alt_of_ne_reject (by simp [hf]), hf],
        hget⟩
  | reject =>
      rw [hf] at hm
      obtain ⟨st', hm', hget'⟩ := h' s st₁
      exact ⟨st', by rw [alt_of_reject hm, hm', Recognizer.alt_of_reject hf], hget'.trans hget⟩

theorem orElse (h : Silent get m f) (h' : Silent get m' f') :
    Silent get (m.orElse m') (f.alt f') := by
  intro s st
  obtain ⟨st₁, hm, hget⟩ := h s st
  cases hf : f s with
  | accept n =>
      refine ⟨st₁, ?_, hget⟩
      rw [Meaning.orElse, hm, Recognizer.alt_of_ne_reject (by simp [hf]), hf]
  | incomplete =>
      refine ⟨st₁, ?_, hget⟩
      rw [Meaning.orElse, hm, Recognizer.alt_of_ne_reject (by simp [hf]), hf]
  | reject =>
      obtain ⟨st', hm', hget'⟩ := h' s st
      exact ⟨st', by rw [Meaning.orElse, hm, hf, hm', Recognizer.alt_of_reject hf], hget'⟩

theorem finish (h : Silent get m f) {accepted : List κ → σ → σ} {failed : σ → σ}
    (ha : ∀ text st, get (accepted text st) = get st) (hf : ∀ st, get (failed st) = get st) :
    Silent get (m.finish (fun text st => .ok (accepted text st)) failed) f := by
  intro s st
  obtain ⟨st₁, hm, hget⟩ := h s st
  rw [Meaning.finish, bind_of_ok hm]
  cases f s with
  | accept n => exact ⟨accepted (s.take n) st₁, rfl, (ha _ _).trans hget⟩
  | incomplete => exact ⟨failed st₁, rfl, (hf _).trans hget⟩
  | reject => exact ⟨failed st₁, rfl, (hf _).trans hget⟩

theorem after (h : Silent get m f) {before : σ → σ} (hb : ∀ st, get (before st) = get st) :
    Silent get (m.after before) f := by
  intro s st
  obtain ⟨st', hm, hget⟩ := h s (before st)
  exact ⟨st', hm, hget.trans (hb st)⟩

theorem bounded (h : Silent get m f) : m.Bounded := by
  intro s st n st' hm
  obtain ⟨st₁, hm', -⟩ := h s st
  rw [hm'] at hm
  exact Recognizer.le_length (Prod.mk.inj (Except.ok.inj hm)).1

theorem loop (h : Silent get m f) : Silent get m.loop f.star := by
  intro s
  induction hn : s.length using Nat.strongRecOn generalizing s with
  | ind n ih =>
      intro st
      obtain ⟨st₁, hm, hget⟩ := h s st
      rw [Meaning.loop_eq h.bounded, Recognizer.star_eq]
      cases hf : f s with
      | accept k =>
          rw [hf] at hm
          cases k with
          | zero => exact ⟨st₁, by rw [turn, bind_of_ok hm]; rfl, hget⟩
          | succ k =>
              have hle := Recognizer.le_length hf
              have hlt : (s.drop (k + 1)).length < n := by
                rw [List.length_drop]
                omega
              obtain ⟨st', hloop, hget'⟩ := ih _ hlt _ rfl st₁
              refine ⟨st', ?_, hget'.trans hget⟩
              rw [turn_of_accept hm (Nat.succ_pos k), bind_of_ok hloop]
              rfl
      | incomplete =>
          rw [hf] at hm
          exact ⟨st₁, by rw [turn, bind_of_ok hm]; rfl, hget⟩
      | reject =>
          rw [hf] at hm
          exact ⟨st₁, turn_of_reject hm, hget⟩

end Silent

/-- Nothing is done with the verdicts. -/
theorem Meaning.finish_id (m : Meaning κ σ) : m.finish (fun _ st => .ok st) id = m := by
  funext s st
  rw [finish, bind_eq]
  cases m s st with
  | error e => rfl
  | ok p =>
      obtain ⟨v, st'⟩ := p
      cases v <;> rfl

/-- A visitor that calls its runner once, and holds a pointer into the state. -/
theorem meaning_call_through {Γ : Env ρ φ κ} {V : Visitors ρ φ κ ν σ} {v : ν} {g : Rule ρ φ}
    {args : Option ν} (p : Pointer σ α) {before failed : α → α}
    {accepted : List κ → α → Except Fault α} {m : Meaning κ α}
    (h : V.operator v g = some fun st => .call false args (fun text => p.tryModify (accepted text))
      (p.modify failed) (p.modify before st))
    (hm : meaning Γ V args g = m.through p) :
    meaning Γ V (some v) g = ((m.finish accepted failed).after before).through p := by
  rw [Meaning.through_after, Meaning.through_finish, ← hm]
  funext s st
  exact meaning_call h s st

end Hittop
