/-
**A pair of ordered actions** (`concurrent/ordered_action_pair.h`).

Two threads come to a pair, one with the first action and one with the second, and whichever of them
comes last runs the second one.  Either of them may call its member function with or without the
suffix `TC`.  With it, it gets a continuation that its caller runs in a loop; without it, it calls
`second_` where it is and ignores what that returns.

Main definitions:

* `Hittop.Pair.Usage` — the member functions that the two sides call, and the second action;
* `Hittop.Pair.State`, `Hittop.Pair.Act`, `Hittop.Pair.step` — the pair and its two threads;
* `Hittop.Pair.Usage.last` — the continuation that is the last one to run;
* `Hittop.Pair.Phase` — the side that is at the second action, or has it left to the other one.

Main results:

* `Hittop.Pair.step_phase` — every atomic step keeps or moves the phase.
-/

import Hittop.Concurrent.OrderedActions

set_option relaxedAutoImplicit false
set_option autoImplicit false

namespace Hittop

namespace Pair

open Sequence (Pc Event inOrder Waiting Passed Runs)

inductive Side
  | first
  | second
  deriving DecidableEq, Repr

/-- How the two sides use the pair.  The second action is the continuation number `1`, and returns a
`TailCall` with the next one as long as its number is at most `links`.  `RunSecond` does not compile
with such an action. -/
structure Usage where
  firstTC : Bool
  secondTC : Bool
  links : ℕ
  links_eq : secondTC = false → links = 0

/-- Whether a side calls the function with the suffix. -/
def Usage.tc (u : Usage) : Side → Bool
  | .first => u.firstTC
  | .second => u.secondTC

/-- The pair, with the calls of the two sides.  `thrown` tells whether an empty `second_` has been
called. -/
structure State where
  pair : OrderedActionPair
  first : Pc
  second : Pc
  thrown : Bool
  log : List (Side × Event)
  deriving DecidableEq

inductive Act
  | call (s : Side)
  /-- The call of a side takes its next atomic step. -/
  | advance (s : Side) (spurious : Bool)

def State.init : State := ⟨.new, .idle, .idle, false, []⟩

def State.pc (c : State) : Side → Pc
  | .first => c.first
  | .second => c.second

def setPc (c : State) : Side → Pc → State
  | .first, pc => { c with first := pc }
  | .second, pc => { c with second := pc }

def setPair (c : State) (p : OrderedActionPair) : State := { c with pair := p }

def record (c : State) (s : Side) (e : Event) : State := { c with log := c.log ++ [(s, e)] }

/-- After the continuation number `k`: the next one, for a caller that runs it. -/
def Usage.resume (u : Usage) (s : Side) (k : ℕ) : Pc :=
  if u.tc s = true ∧ k ≤ u.links then .tail (k + 1) else .returned

/-- The side has come to call `second_`, or to swap it for the empty `TailCall` it returns. -/
def takeSecond (u : Usage) (c : State) (s : Side) : State :=
  match u.tc s, c.pair.second with
  | true, some k => setPc (setPair c { c.pair with second := none }) s (.tail k)
  | true, none => setPc c s .returned
  | false, some k => setPc c s (.tail k)
  | false, none => { setPc c s .returned with thrown := true }

/-- The next atomic step of `RunFirst` or `RunFirstTC`. -/
def advanceFirst (u : Usage) (c : State) (spurious : Bool) : Option State :=
  match c.first with
  | .tail k => some (setPc (record c .first (.start k)) .first (.running k))
  | .running 0 => some (setPc (record c .first (.finish 0)) .first (.firstLoad 0))
  | .running (k + 1) =>
      some (setPc (record c .first (.finish (k + 1))) .first (u.resume .first (k + 1)))
  | .firstLoad k => some (setPc c .first (.first k c.pair.state))
  | .first k current =>
      if current = .runFirstCallsSecond then some (takeSecond u c .first)
      else
        match c.pair.compareExchangeWeak current .runSecondCallsSecond spurious with
        | (true, _, p) => some (setPc (setPair c p) .first .returned)
        | (false, current', _) => some (setPc c .first (.first k current'))
  | _ => none

/-- The next atomic step of `RunSecond` or `RunSecondTC`. -/
def advanceSecond (u : Usage) (c : State) (spurious : Bool) : Option State :=
  match c.second with
  | .load =>
      let current := c.pair.state
      if current = .runSecondCallsSecond then some (setPc c .second (.tail 1))
      else some (setPc c .second (.store current))
  | .store current =>
      some (setPc (setPair c { c.pair with second := some 1 }) .second (.cas current))
  | .cas current =>
      match c.pair.compareExchangeWeak current .runFirstCallsSecond spurious with
      | (true, _, p) => some (setPc (setPair c p) .second .returned)
      | (false, current', _) =>
          if current' = .runSecondCallsSecond then some (setPc c .second .swap)
          else some (setPc c .second (.cas current'))
  | .swap => some (takeSecond u c .second)
  | .tail k => some (setPc (record c .second (.start k)) .second (.running k))
  | .running k => some (setPc (record c .second (.finish k)) .second (u.resume .second k))
  | _ => none

/-- A side makes its only call, or the call takes a step. -/
def step (u : Usage) (c : State) : Act → Option State
  | .call .first => if c.first = .idle then some (setPc c .first (.tail 0)) else none
  | .call .second => if c.second = .idle then some (setPc c .second .load) else none
  | .advance .first spurious => advanceFirst u c spurious
  | .advance .second spurious => advanceSecond u c spurious

/-- What `state()` returns after the side has run the second action. -/
def Side.state : Side → PairState
  | .first => .runFirstCallsSecond
  | .second => .runSecondCallsSecond

/-- The last continuation that a side runs: without the suffix it drops what the second action
returns. -/
def Usage.last (u : Usage) (s : Side) : ℕ := if u.tc s = true then u.links + 1 else 1

/-- The action that an event belongs to. -/
def action : Event → ℕ
  | .start k => k
  | .finish k => k

/-- The first action runs on its own side, the rest on the side `s`. -/
def ranBy (s : Side) (es : List Event) : List (Side × Event) :=
  es.map fun e => (if action e = 0 then .first else s, e)

/-! ### Phases -/

/-- The first side before it has left the pair: it has not been called, or knows no more of the
state than it has seen. -/
inductive Early (p : OrderedActionPair) : Pc → List (Side × Event) → Prop
  | idle : Early p .idle []
  | runs {pc : Pc} {es : List Event} (h : Runs 0 p pc es) : Early p pc (ranBy .first es)

/-- A side that runs the second action, or has run it. -/
inductive Chain (u : Usage) (s : Side) : Pc → List (Side × Event) → Prop
  | tail (k : ℕ) (hk : 0 < k) (hlast : k ≤ u.last s) : Chain u s (.tail k) (ranBy s (inOrder k))
  | running (k : ℕ) (hk : 0 < k) (hlast : k ≤ u.last s) :
      Chain u s (.running k) (ranBy s (inOrder k ++ [.start k]))
  | returned : Chain u s .returned (ranBy s (inOrder (u.last s + 1)))

inductive Phase (u : Usage) (c : State) : Prop
  /-- The first side has not left the pair. -/
  | early (hfirst : Early c.pair c.first c.log) (hsecond : Waiting 1 c.pair c.second)
  /-- The second side has left its action, and the first one has got hold of it. -/
  | handed (hfirst : Chain u .first c.first c.log) (hpair : c.pair.state = Side.first.state)
      (hsecond : c.second = .returned)
  /-- The first side has left the pair, and the second one has not seen it. -/
  | passed (hfirst : c.first = .returned) (hlog : c.log = ranBy .second (inOrder 1))
      (hsecond : Passed 1 c.pair c.second)
  /-- The second side runs its own action. -/
  | late (hfirst : c.first = .returned) (hpair : c.pair.state = Side.second.state)
      (hsecond : Chain u .second c.second c.log)

variable {u : Usage} {c c' : State} {s : Side} {k : ℕ} {spurious : Bool} {p : OrderedActionPair}
  {pc : Pc} {es : List Event} {log : List (Side × Event)}

@[simp] theorem ranBy_append {es' : List Event} : ranBy s (es ++ es') = ranBy s es ++ ranBy s es' :=
  List.map_append

@[simp] theorem map_snd_ranBy : (ranBy s es).map Prod.snd = es := by
  rw [ranBy, List.map_map]
  exact List.map_id es

theorem ranBy_start (hk : 0 < k) : ranBy s [.start k] = [(s, .start k)] := by
  simp [ranBy, action, Nat.ne_of_gt hk]

theorem ranBy_finish (hk : 0 < k) : ranBy s [.finish k] = [(s, .finish k)] := by
  simp [ranBy, action, Nat.ne_of_gt hk]

/-- Whoever runs the second action, the first one runs on its own side. -/
theorem ranBy_one : ranBy .first (inOrder 1) = ranBy s (inOrder 1) := by
  simp [ranBy, inOrder, action]

theorem one_le_last : 1 ≤ u.last s := by
  rw [Usage.last]
  split
  · omega
  · exact Nat.le_refl 1

theorem last_le : u.last s ≤ u.links + 1 := by
  rw [Usage.last]
  split <;> omega

/-- The side is about to run the second action. -/
theorem Chain.begin : Chain u s (.tail 1) (ranBy s (inOrder 1)) :=
  .tail 1 Nat.one_pos one_le_last

theorem Chain.start (h : Chain u s (.tail k) log) :
    Chain u s (.running k) (log ++ [(s, .start k)]) := by
  cases h with
  | tail k hk hlast =>
      rw [← ranBy_start hk, ← ranBy_append]
      exact .running k hk hlast

theorem Chain.finish (h : Chain u s (.running k) log) :
    Chain u s (u.resume s k) (log ++ [(s, .finish k)]) := by
  cases h with
  | running k hk hlast =>
      have hlog : ranBy s (inOrder k ++ [.start k]) ++ [(s, .finish k)] =
          ranBy s (inOrder (k + 1)) := by
        rw [← ranBy_finish hk, ← ranBy_append, Sequence.inOrder_succ, List.append_assoc]
        rfl
      rw [hlog, Usage.resume]
      split
      case isTrue h =>
        refine .tail (k + 1) (Nat.succ_pos k) ?_
        rw [Usage.last, if_pos h.1]
        omega
      case isFalse h =>
        -- the last continuation has run, or the side does not run more than one
        obtain rfl : k = u.last s := by
          rw [Usage.last] at hlast ⊢
          split at hlast <;> simp_all <;> omega
        exact .returned

/-! ### Steps -/

@[simp] theorem setPc_first_first : (setPc c .first pc).first = pc := rfl

@[simp] theorem setPc_first_second : (setPc c .first pc).second = c.second := rfl

@[simp] theorem setPc_second_first : (setPc c .second pc).first = c.first := rfl

@[simp] theorem setPc_second_second : (setPc c .second pc).second = pc := rfl

@[simp] theorem setPc_pair : (setPc c s pc).pair = c.pair := by
  cases s <;> rfl

@[simp] theorem setPc_log : (setPc c s pc).log = c.log := by
  cases s <;> rfl

@[simp] theorem setPc_thrown : (setPc c s pc).thrown = c.thrown := by
  cases s <;> rfl

@[simp] theorem setPc_pc : (setPc c s pc).pc s = pc := by
  cases s <;> rfl

theorem setPc_pc_of_ne {t : Side} (h : t ≠ s) : (setPc c s pc).pc t = c.pc t := by
  cases s <;> cases t <;> first | rfl | exact absurd rfl h

@[simp] theorem setPair_pc : (setPair c p).pc s = c.pc s := by
  cases s <;> rfl

@[simp] theorem record_pc {t : Side} {e : Event} : (record c s e).pc t = c.pc t := by
  cases t <;> rfl

@[simp] theorem setPair_pair : (setPair c p).pair = p := rfl

@[simp] theorem setPair_first : (setPair c p).first = c.first := rfl

@[simp] theorem setPair_second : (setPair c p).second = c.second := rfl

@[simp] theorem setPair_log : (setPair c p).log = c.log := rfl

@[simp] theorem setPair_thrown : (setPair c p).thrown = c.thrown := rfl

@[simp] theorem record_pair {e : Event} : (record c s e).pair = c.pair := rfl

@[simp] theorem record_first {e : Event} : (record c s e).first = c.first := rfl

@[simp] theorem record_second {e : Event} : (record c s e).second = c.second := rfl

@[simp] theorem record_log {e : Event} : (record c s e).log = c.log ++ [(s, e)] := rfl

@[simp] theorem record_thrown {e : Event} : (record c s e).thrown = c.thrown := rfl

/-- A side that comes to `second_` where an action is in it gets hold of that action. -/
theorem takeSecond_some (h : c.pair.second = some k) :
    ∃ p, p.state = c.pair.state ∧ takeSecond u c s = setPc (setPair c p) s (.tail k) := by
  rw [takeSecond, h]
  cases u.tc s with
  | true => exact ⟨{ c.pair with second := none }, rfl, rfl⟩
  | false => exact ⟨c.pair, rfl, rfl⟩

/-- A side that runs the second action does nothing to the pair. -/
theorem advanceFirst_chain (hc : Chain u .first c.first c.log)
    (h : advanceFirst u c spurious = some c') :
    ∃ pc e, c' = setPc (record c .first e) .first pc ∧
      Chain u .first pc (c.log ++ [(.first, e)]) := by
  rw [advanceFirst] at h
  generalize hpc : c.first = pc at hc h
  cases pc with
  | tail k => exact ⟨.running k, .start k, (Option.some.inj h).symm, hc.start⟩
  | running k =>
      obtain ⟨k, rfl⟩ : ∃ n, k = n + 1 := by
        generalize c.log = log at hc
        cases hc with
        | running k hk hlast => exact ⟨k - 1, by omega⟩
      exact ⟨u.resume .first (k + 1), .finish (k + 1), (Option.some.inj h).symm, hc.finish⟩
  | returned => cases h
  | _ => cases hc

theorem advanceSecond_chain (hc : Chain u .second c.second c.log)
    (h : advanceSecond u c spurious = some c') :
    ∃ pc e, c' = setPc (record c .second e) .second pc ∧
      Chain u .second pc (c.log ++ [(.second, e)]) := by
  rw [advanceSecond] at h
  generalize hpc : c.second = pc at hc h
  cases pc with
  | tail k => exact ⟨.running k, .start k, (Option.some.inj h).symm, hc.start⟩
  | running k => exact ⟨u.resume .second k, .finish k, (Option.some.inj h).symm, hc.finish⟩
  | returned => cases h
  | _ => cases hc

/-- The second side, before the first one has left the pair, keeps it waiting. -/
theorem advanceSecond_waiting (hw : Waiting 1 c.pair c.second)
    (h : advanceSecond u c spurious = some c') :
    c.pair.state = .initial ∧
      ∃ p pc, Waiting 1 p pc ∧ c' = setPc (setPair c p) .second pc := by
  rw [advanceSecond] at h
  generalize hp : c.pair = p at hw h
  generalize hpc : c.second = pc at hw h
  cases hw with
  | idle => cases h
  | load =>
      refine ⟨rfl, .new, .store .initial, .store, ?_⟩
      rw [← hp, setPair]
      exact (Option.some.inj h).symm
  | store => exact ⟨rfl, ⟨.initial, some 1⟩, .cas .initial, .cas, (Option.some.inj h).symm⟩
  | cas =>
      cases spurious with
      | false =>
          exact ⟨rfl, ⟨.runFirstCallsSecond, some 1⟩, .returned, .left, (Option.some.inj h).symm⟩
      | true =>
          refine ⟨rfl, ⟨.initial, some 1⟩, .cas .initial, .cas, ?_⟩
          rw [← hp, setPair]
          exact (Option.some.inj h).symm
  | left => cases h

/-- The second side, after the first one has left the pair, sees that or gets hold of its own
action. -/
theorem advanceSecond_passed (hw : Passed 1 c.pair c.second)
    (h : advanceSecond u c spurious = some c') :
    ∃ p pc, (Passed 1 p pc ∨ p.state = .runSecondCallsSecond ∧ pc = .tail 1) ∧
      c' = setPc (setPair c p) .second pc := by
  rw [advanceSecond] at h
  generalize hp : c.pair = p at hw h
  generalize hpc : c.second = pc at hw h
  cases hw with
  | idle => cases h
  | load =>
      refine ⟨c.pair, .tail 1, .inr ⟨by rw [hp], rfl⟩, ?_⟩
      exact (Option.some.inj h).symm
  | store =>
      exact ⟨⟨.runSecondCallsSecond, some 1⟩, .cas .initial, .inl .cas, (Option.some.inj h).symm⟩
  | cas =>
      refine ⟨c.pair, .swap, .inl (by rw [hp]; exact .swap), ?_⟩
      exact (Option.some.inj h).symm
  | swap =>
      obtain ⟨p, hstate, htake⟩ := takeSecond_some (u := u) (s := .second)
        (show c.pair.second = some 1 by rw [hp])
      refine ⟨p, .tail 1, .inr ⟨by rw [hstate, hp], rfl⟩, ?_⟩
      rw [← htake]
      exact (Option.some.inj h).symm

/-- The first side leaves the pair to the second one. -/
theorem Waiting.leave (hw : Waiting 1 p pc) (h : p.state = .initial) :
    Passed 1 { p with state := .runSecondCallsSecond } pc := by
  cases hw with
  | idle => exact .idle
  | load => exact .load
  | store => exact .store
  | cas => exact .cas
  | left => cases h

/-- The second side has left its action in the pair. -/
theorem Waiting.left_of_state (hw : Waiting k p pc) (h : p.state = .runFirstCallsSecond) :
    p.second = some k ∧ pc = .returned := by
  cases hw with
  | left => exact ⟨rfl, rfl⟩
  | _ => cases h

/-- The first side sees that the second one has come before it. -/
theorem phase_take (hlog : c.log = ranBy .first (inOrder 1)) (hw : Waiting 1 c.pair c.second)
    (hstate : c.pair.state = .runFirstCallsSecond) :
    Phase u (takeSecond u c .first) ∧ (takeSecond u c .first).thrown = c.thrown := by
  obtain ⟨hsome, hsecond⟩ := Waiting.left_of_state hw hstate
  obtain ⟨p, hp, htake⟩ := takeSecond_some (u := u) (s := .first) hsome
  rw [htake]
  refine ⟨.handed ?_ ?_ ?_, by simp⟩
  · simpa [hlog] using Chain.begin (u := u) (s := .first)
  · simpa [Side.state, hp] using hstate
  · simpa using hsecond

/-- The first side leaves the pair before the second one has come. -/
theorem phase_leave (hlog : c.log = ranBy .first (inOrder 1)) (hw : Waiting 1 c.pair c.second)
    (hstate : c.pair.state = .initial) :
    Phase u (setPc (setPair c { c.pair with state := .runSecondCallsSecond }) .first
      .returned) := by
  refine .passed ?_ ?_ ?_
  · simp
  · simpa [hlog] using ranBy_one
  · simpa using Waiting.leave hw hstate

/-- A step of the first side, before it has left the pair. -/
theorem advanceFirst_early (hf : Early c.pair c.first c.log) (hw : Waiting 1 c.pair c.second)
    (h : advanceFirst u c spurious = some c') : Phase u c' ∧ c'.thrown = c.thrown := by
  rw [advanceFirst] at h
  generalize hpc : c.first = pc at hf h
  generalize hlog : c.log = log at hf
  cases hf with
  | idle => cases h
  | runs hr =>
    cases hr with
    | tail =>
        obtain rfl := Option.some.inj h
        refine ⟨.early ?_ (by simpa using hw), by simp⟩
        rw [setPc_log, record_log, hlog]
        exact .runs .running
    | running =>
        obtain rfl := Option.some.inj h
        refine ⟨.early ?_ (by simpa using hw), by simp⟩
        rw [setPc_log, record_log, hlog]
        exact .runs .firstLoad
    | firstLoad =>
        obtain rfl := Option.some.inj h
        refine ⟨.early ?_ (by simpa using hw), by simp⟩
        rw [setPc_log, setPc_pair, hlog]
        refine .runs (.first c.pair.state ?_)
        rcases hw.state with hstate | hstate
        · exact .inl hstate
        · exact .inr ⟨hstate, hstate⟩
    | first current hcurrent =>
        rcases hcurrent with rfl | ⟨rfl, hstate⟩
        · -- the state it has seen is the initial one, which may have changed since
          rcases hw.state with hstate | hstate
          · cases spurious with
            | false =>
                obtain rfl : setPc (setPair c { c.pair with state := .runSecondCallsSecond }) .first
                    .returned = c' := by
                  simpa [OrderedActionPair.compareExchangeWeak, hstate] using h
                exact ⟨phase_leave hlog hw hstate, by simp⟩
            | true =>
                obtain rfl : setPc c .first (.first 0 .initial) = c' := by
                  simpa [OrderedActionPair.compareExchangeWeak, hstate] using h
                refine ⟨.early ?_ (by simpa using hw), by simp⟩
                rw [setPc_log, setPc_pair, hlog]
                exact .runs (.first .initial (.inl rfl))
          · obtain rfl : setPc c .first (.first 0 .runFirstCallsSecond) = c' := by
              simpa [OrderedActionPair.compareExchangeWeak, hstate] using h
            refine ⟨.early ?_ (by simpa using hw), by simp⟩
            rw [setPc_log, setPc_pair, hlog]
            exact .runs (.first .runFirstCallsSecond (.inr ⟨rfl, hstate⟩))
        · obtain rfl : takeSecond u c .first = c' := by simpa using h
          exact phase_take hlog hw hstate

/-- What the first side knows of the pair, it does not know from the initial state. -/
theorem Early.of_initial {p' : OrderedActionPair} (hf : Early p pc log) (h : p.state = .initial) :
    Early p' pc log := by
  cases hf with
  | idle => exact .idle
  | runs hr => exact .runs (hr.of_initial h)

/-- A side that has returned takes no step. -/
theorem advance_returned (h : c.pc s = .returned) : step u c (.advance s spurious) = none := by
  cases s with
  | first =>
      change c.first = .returned at h
      rw [step, advanceFirst, h]
  | second =>
      change c.second = .returned at h
      rw [step, advanceSecond, h]

/-- The step of a side keeps or moves the phase, and nobody calls an empty `second_`. -/
theorem advance_phase (hc : Phase u c) (h : step u c (.advance s spurious) = some c') :
    Phase u c' ∧ c'.thrown = c.thrown := by
  cases hc with
  | early hfirst hsecond =>
      cases s with
      | first => exact advanceFirst_early hfirst hsecond h
      | second =>
          obtain ⟨hstate, p, pc, hw, rfl⟩ := advanceSecond_waiting hsecond h
          refine ⟨.early ?_ (by simpa using hw), by simp⟩
          simpa using hfirst.of_initial hstate
  | handed hfirst hpair hsecond =>
      cases s with
      | first =>
          obtain ⟨pc, e, rfl, hchain⟩ := advanceFirst_chain hfirst h
          exact ⟨.handed (by simpa using hchain) (by simpa using hpair) (by simpa using hsecond),
            by simp⟩
      | second =>
          rw [advance_returned (s := .second) hsecond] at h
          cases h
  | passed hfirst hlog hsecond =>
      cases s with
      | first =>
          rw [advance_returned (s := .first) hfirst] at h
          cases h
      | second =>
          obtain ⟨p, pc, hw | ⟨hstate, rfl⟩, rfl⟩ := advanceSecond_passed hsecond h
          · exact ⟨.passed (by simpa using hfirst) (by simpa using hlog) (by simpa using hw),
              by simp⟩
          · refine ⟨.late (by simpa using hfirst) (by simpa [Side.state] using hstate) ?_, by simp⟩
            simpa [hlog] using Chain.begin (u := u) (s := .second)
  | late hfirst hpair hsecond =>
      cases s with
      | first =>
          rw [advance_returned (s := .first) hfirst] at h
          cases h
      | second =>
          obtain ⟨pc, e, rfl, hchain⟩ := advanceSecond_chain hsecond h
          exact ⟨.late (by simpa using hfirst) (by simpa using hpair) (by simpa using hchain),
            by simp⟩

/-- A side calls its member function. -/
theorem call_phase (hc : Phase u c) (h : step u c (.call s) = some c') :
    Phase u c' ∧ c'.thrown = c.thrown := by
  cases s with
  | first =>
      obtain ⟨hidle, rfl⟩ : c.first = .idle ∧ setPc c .first (.tail 0) = c' := by
        simpa [step] using h
      refine ⟨?_, by simp⟩
      cases hc with
      | early hfirst hsecond =>
          refine .early ?_ (by simpa using hsecond)
          generalize hlog : c.log = log at hfirst
          rw [hidle] at hfirst
          cases hfirst with
          | idle =>
              rw [setPc_log, hlog]
              exact .runs .tail
          | runs hr => cases hr
      | handed hfirst hpair hsecond =>
          rw [hidle] at hfirst
          cases hfirst
      | passed hfirst hlog hsecond => simp [hidle] at hfirst
      | late hfirst hpair hsecond => simp [hidle] at hfirst
  | second =>
      obtain ⟨hidle, rfl⟩ : c.second = .idle ∧ setPc c .second .load = c' := by
        simpa [step] using h
      refine ⟨?_, by simp⟩
      cases hc with
      | early hfirst hsecond =>
          refine .early (by simpa using hfirst) ?_
          rw [setPc_pair]
          rw [hidle] at hsecond
          generalize c.pair = p at hsecond ⊢
          cases hsecond
          exact .load
      | handed hfirst hpair hsecond => simp [hidle] at hsecond
      | passed hfirst hlog hsecond =>
          refine .passed (by simpa using hfirst) (by simpa using hlog) ?_
          rw [setPc_pair]
          rw [hidle] at hsecond
          generalize c.pair = p at hsecond ⊢
          cases hsecond
          exact .load
      | late hfirst hpair hsecond =>
          rw [hidle] at hsecond
          cases hsecond

theorem step_phase {a : Act} (hc : Phase u c) (h : step u c a = some c') :
    Phase u c' ∧ c'.thrown = c.thrown := by
  cases a with
  | call s => exact call_phase hc h
  | advance s spurious => exact advance_phase hc h

end Pair

end Hittop
