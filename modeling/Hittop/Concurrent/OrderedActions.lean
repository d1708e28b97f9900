/-
**Ordered actions** (`concurrent/ordered_action_pair.h`, `concurrent/ordered_action_sequence.h`).

A pair has a first and a second action, and whichever of its two sides comes last runs the second
one.  In a sequence the action number `k` is the second action of pair `k` and, run through the
continuation that is passed there, the first action of pair `k + 1`.  A thread that invokes a
wrapper may have to leave its continuation in `second_`, or may have to run a chain of continuations
that others have left.

Main definitions:

* `Hittop.OrderedActionPair` — the members of the class, with `compareExchangeWeak` and `runFirst`;
* `Hittop.Sequence.Pc` — where the invocation of a wrapper is, between two atomic steps;
* `Hittop.Sequence.State`, `Hittop.Sequence.Act`, `Hittop.Sequence.step` — the sequence and its
  threads;
* `Hittop.Sequence.Front` — the place up to which the actions have run.

Main results:

* `Hittop.Sequence.advance_front` — every atomic step keeps or moves the front;
* `Hittop.actions_run_in_order` — actions run once and in order, and none is left behind.
-/

import Mathlib.Data.List.Basic
import Mathlib.Tactic.Common
import Hittop.Library.Run

set_option relaxedAutoImplicit false
set_option autoImplicit false

namespace Hittop

/-- `OrderedActionPair::PossibleStates`. -/
inductive PairState
  | initial
  | runFirstCallsSecond
  | runSecondCallsSecond
  deriving DecidableEq, Repr

/-- `OrderedActionPair`.  A `TailCall` is empty or the continuation of the wrapper of an action,
which runs the action as the first one of the next pair. -/
structure OrderedActionPair where
  state : PairState
  second : Option ℕ
  deriving DecidableEq, Repr

namespace OrderedActionPair

/-- The constructor. -/
def new : OrderedActionPair := ⟨.initial, none⟩

/-- `state_.compare_exchange_weak(current, desired)`: whether it succeeds, and `current` afterwards.
It may fail although the state is the expected one. -/
def compareExchangeWeak (p : OrderedActionPair) (current desired : PairState) (spurious : Bool) :
    Bool × PairState × OrderedActionPair :=
  if p.state = current ∧ spurious = false then (true, current, { p with state := desired })
  else (false, p.state, p)

/-- The loop of `RunFirst` after the action, on a pair that no other thread uses: as many exchanges
as `failures` has elements, each of which may fail spuriously.  Nothing as long as it has not
returned. -/
def runFirst (p : OrderedActionPair) : PairState → List Bool → Option OrderedActionPair
  | _, [] => none
  | current, spurious :: failures =>
      if current = .runFirstCallsSecond then some p
      else
        match p.compareExchangeWeak current .runSecondCallsSecond spurious with
        | (true, _, p') => some p'
        | (false, current', p') => runFirst p' current' failures

/-- Where nobody has come with a second action, `RunFirst` leaves it to `RunSecond` to call it. -/
theorem runFirst_new {failures : List Bool} {p : OrderedActionPair}
    (h : runFirst .new .initial failures = some p) : p = ⟨.runSecondCallsSecond, none⟩ := by
  induction failures with
  | nil => simp [runFirst] at h
  | cons spurious failures ih =>
      cases spurious with
      | false => simpa [runFirst, compareExchangeWeak, new, eq_comm] using h
      | true => exact ih (by simpa [runFirst, compareExchangeWeak, new] using h)

end OrderedActionPair

namespace Sequence

/-- Where the invocation of a wrapper is.  It begins in `RunSecondTC` on the pair of its action, and
goes on through `RunFirstTC` on the pair after the action number `k`, for every continuation that it
has got hold of. -/
inductive Pc
  /-- The wrapper has not been invoked. -/
  | idle
  /-- `RunSecondTC` is about to load the state. -/
  | load
  /-- It is about to write `second_`. -/
  | store (current : PairState)
  /-- It is about to exchange the state. -/
  | cas (current : PairState)
  /-- It has seen that the first action has run, and is about to take `second_` back. -/
  | swap
  /-- The thread is about to call the continuation of the action number `k`. -/
  | tail (k : ℕ)
  /-- It is running the action. -/
  | running (k : ℕ)
  /-- `RunFirstTC`, after the action, is about to load the state. -/
  | firstLoad (k : ℕ)
  /-- It is in the loop: about to take `second_`, or to exchange the state. -/
  | first (k : ℕ) (current : PairState)
  | returned
  deriving DecidableEq, Repr

inductive Event
  | start (k : ℕ)
  | finish (k : ℕ)
  deriving DecidableEq, Repr

/-- The sequence, with the invocations of its wrappers. -/
structure State where
  /-- How many actions have been wrapped. -/
  wrapped : ℕ
  pairs : ℕ → OrderedActionPair
  pc : ℕ → Pc
  log : List Event

inductive Act
  | wrapNext
  | invoke (k : ℕ)
  /-- The invocation of the wrapper number `i` takes its next atomic step. -/
  | advance (i : ℕ) (spurious : Bool)

/-- A new sequence, whose constructor has run the no-op first action of the first pair. -/
def State.init (p : OrderedActionPair) : State where
  wrapped := 0
  pairs := fun k => if k = 0 then p else .new
  pc := fun _ => .idle
  log := []

/-- The thread has got a `TailCall`: it calls it, or returns if it is empty. -/
def resume : Option ℕ → Pc
  | some k => .tail k
  | none => .returned

def setPc (c : State) (i : ℕ) (pc : Pc) : State := { c with pc := Function.update c.pc i pc }

def setPair (c : State) (k : ℕ) (p : OrderedActionPair) : State :=
  { c with pairs := Function.update c.pairs k p }

def record (c : State) (e : Event) : State := { c with log := c.log ++ [e] }

/-- The next atomic step of the invocation of the wrapper number `i`. -/
def advance (c : State) (i : ℕ) (spurious : Bool) : Option State :=
  match c.pc i with
  | .idle => none
  | .load =>
      let current := (c.pairs i).state
      if current = .runSecondCallsSecond then some (setPc c i (.tail i))
      else some (setPc c i (.store current))
  | .store current =>
      some (setPc (setPair c i { c.pairs i with second := some i }) i (.cas current))
  | .cas current =>
      match (c.pairs i).compareExchangeWeak current .runFirstCallsSecond spurious with
      | (true, _, p) => some (setPc (setPair c i p) i .returned)
      | (false, current', _) =>
          if current' = .runSecondCallsSecond then some (setPc c i .swap)
          else some (setPc c i (.cas current'))
  | .swap =>
      some (setPc (setPair c i { c.pairs i with second := none }) i (resume (c.pairs i).second))
  | .tail k => some (setPc (record c (.start k)) i (.running k))
  | .running k => some (setPc (record c (.finish k)) i (.firstLoad k))
  | .firstLoad k => some (setPc c i (.first k (c.pairs (k + 1)).state))
  | .first k current =>
      if current = .runFirstCallsSecond then
        some (setPc (setPair c (k + 1) { c.pairs (k + 1) with second := none }) i
          (resume (c.pairs (k + 1)).second))
      else
        match (c.pairs (k + 1)).compareExchangeWeak current .runSecondCallsSecond spurious with
        | (true, _, p) => some (setPc (setPair c (k + 1) p) i .returned)
        | (false, current', _) => some (setPc c i (.first k current'))
  | .returned => none

/-- `WrapNext`, an invocation of a wrapper, or a step of one that is under way. -/
def step (c : State) : Act → Option State
  | .wrapNext => some { c with wrapped := c.wrapped + 1 }
  | .invoke k => if k < c.wrapped ∧ c.pc k = .idle then some (setPc c k .load) else none
  | .advance i spurious => advance c i spurious

/-- The first `n` actions run one after the other. -/
def inOrder (n : ℕ) : List Event := (List.range n).flatMap fun k => [.start k, .finish k]

@[simp] theorem inOrder_succ (n : ℕ) : inOrder (n + 1) = inOrder n ++ [.start n, .finish n] := by
  simp [inOrder, List.range_succ]

/-! ### The front -/

/-- The second side of pair `k`, before the first side has come: its continuation is nowhere, or
with its own thread, or left in `second_`. -/
inductive Waiting (k : ℕ) : OrderedActionPair → Pc → Prop
  | idle : Waiting k .new .idle
  | load : Waiting k .new .load
  | store : Waiting k .new (.store .initial)
  | cas : Waiting k ⟨.initial, some k⟩ (.cas .initial)
  | left : Waiting k ⟨.runFirstCallsSecond, some k⟩ .returned

/-- The second side of pair `k`, after the first side has come and gone. -/
inductive Passed (k : ℕ) : OrderedActionPair → Pc → Prop
  | idle : Passed k ⟨.runSecondCallsSecond, none⟩ .idle
  | load : Passed k ⟨.runSecondCallsSecond, none⟩ .load
  | store : Passed k ⟨.runSecondCallsSecond, none⟩ (.store .initial)
  | cas : Passed k ⟨.runSecondCallsSecond, some k⟩ (.cas .initial)
  | swap : Passed k ⟨.runSecondCallsSecond, some k⟩ .swap

/-- What the thread that runs the action number `m` is about to do, what has been logged and what it
knows about the next pair. -/
inductive Runs (m : ℕ) (next : OrderedActionPair) : Pc → List Event → Prop
  | tail : Runs m next (.tail m) (inOrder m)
  | running : Runs m next (.running m) (inOrder m ++ [.start m])
  | firstLoad : Runs m next (.firstLoad m) (inOrder (m + 1))
  | first (current : PairState) (h : current = .initial ∨
      current = .runFirstCallsSecond ∧ next.state = .runFirstCallsSecond) :
      Runs m next (.first m current) (inOrder (m + 1))

/-- The place up to which the actions have run: a thread is running the action number `m`, or the
second side of pair `m` has yet to come.  Before the front, all invocations have returned; after it,
no first side has come. -/
inductive Front (c : State) : Prop
  | gap (m : ℕ) (hlog : c.log = inOrder m) (before : ∀ k < m, c.pc k = .returned)
      (here : Passed m (c.pairs m) (c.pc m)) (after : ∀ k > m, Waiting k (c.pairs k) (c.pc k))
  | runner (m i : ℕ) (hi : i ≤ m) (runs : Runs m (c.pairs (m + 1)) (c.pc i) c.log)
      (before : ∀ k ≤ m, k ≠ i → c.pc k = .returned)
      (after : ∀ k > m, Waiting k (c.pairs k) (c.pc k))

variable {c c' : State} {i k m : ℕ} {spurious : Bool} {p : OrderedActionPair} {pc : Pc}

theorem Waiting.state (hw : Waiting k p pc) :
    p.state = .initial ∨ p.state = .runFirstCallsSecond := by
  cases hw with
  | left => exact .inr rfl
  | _ => exact .inl rfl

/-- A thread before the front has nothing left to do. -/
theorem advance_returned (hpc : c.pc i = .returned) : advance c i spurious = none := by
  rw [advance, hpc]

theorem setPair_self : setPair c k (c.pairs k) = c := by
  rw [setPair, Function.update_eq_self]

/-- A thread after the front leaves its pair waiting. -/
theorem advance_waiting (hw : Waiting i (c.pairs i) (c.pc i))
    (h : advance c i spurious = some c') :
    (c.pairs i).state = .initial ∧
      ∃ p pc, Waiting i p pc ∧ c' = setPc (setPair c i p) i pc := by
  rw [advance] at h
  generalize hp : c.pairs i = p at hw h
  generalize hpc : c.pc i = pc at hw h
  cases hw with
  | idle => simp at h
  | load =>
      refine ⟨rfl, .new, .store .initial, .store, ?_⟩
      rw [← hp, setPair_self]
      simpa [OrderedActionPair.new, eq_comm] using h
  | store =>
      refine ⟨rfl, ⟨.initial, some i⟩, .cas .initial, .cas, ?_⟩
      simpa [OrderedActionPair.new, eq_comm] using h
  | cas =>
      cases spurious with
      | false =>
          refine ⟨rfl, ⟨.runFirstCallsSecond, some i⟩, .returned, .left, ?_⟩
          simpa [OrderedActionPair.compareExchangeWeak, eq_comm] using h
      | true =>
          refine ⟨rfl, ⟨.initial, some i⟩, .cas .initial, .cas, ?_⟩
          rw [← hp, setPair_self]
          simpa [OrderedActionPair.compareExchangeWeak, eq_comm] using h
  | left => simp at h

/-- The thread whose action is next leaves its pair as the first side has, or gets hold of its own
continuation. -/
theorem advance_passed (hw : Passed i (c.pairs i) (c.pc i))
    (h : advance c i spurious = some c') :
    ∃ p pc, (Passed i p pc ∨ pc = .tail i) ∧ c' = setPc (setPair c i p) i pc := by
  rw [advance] at h
  generalize hp : c.pairs i = p at hw h
  generalize hpc : c.pc i = pc at hw h
  cases hw with
  | idle => simp at h
  | load =>
      refine ⟨c.pairs i, .tail i, .inr rfl, ?_⟩
      rw [setPair_self]
      simpa [eq_comm] using h
  | store =>
      refine ⟨⟨.runSecondCallsSecond, some i⟩, .cas .initial, .inl .cas, ?_⟩
      simpa [eq_comm] using h
  | cas =>
      refine ⟨c.pairs i, .swap, .inl (by rw [hp]; exact .swap), ?_⟩
      rw [setPair_self]
      simpa [OrderedActionPair.compareExchangeWeak, eq_comm] using h
  | swap =>
      refine ⟨⟨.runSecondCallsSecond, none⟩, .tail i, .inr rfl, ?_⟩
      simpa [resume, eq_comm] using h

/-! ### Steps -/

@[simp] theorem setPc_pc : (setPc c i pc).pc k = if k = i then pc else c.pc k := by
  simp [setPc, Function.update_apply]

@[simp] theorem setPair_pairs : (setPair c i p).pairs k = if k = i then p else c.pairs k := by
  simp [setPair, Function.update_apply]

@[simp] theorem setPc_pairs : (setPc c i pc).pairs = c.pairs := rfl

@[simp] theorem setPc_log : (setPc c i pc).log = c.log := rfl

@[simp] theorem setPair_pc : (setPair c i p).pc = c.pc := rfl

@[simp] theorem setPair_log : (setPair c i p).log = c.log := rfl

@[simp] theorem record_pc {e : Event} : (record c e).pc = c.pc := rfl

@[simp] theorem record_pairs {e : Event} : (record c e).pairs = c.pairs := rfl

@[simp] theorem record_log {e : Event} : (record c e).log = c.log ++ [e] := rfl

/-- What the thread at the front knows about the next pair, it does not know from a pair that nobody
has come to. -/
theorem Runs.of_initial {next next' : OrderedActionPair} {log : List Event}
    (hr : Runs m next pc log) (h : next.state = .initial) : Runs m next' pc log := by
  cases hr with
  | tail => exact .tail
  | running => exact .running
  | firstLoad => exact .firstLoad
  | first current hcurrent =>
      refine .first current (.inl (hcurrent.resolve_right ?_))
      rintro ⟨-, hstate⟩
      rw [h] at hstate
      simp at hstate

/-- After the front, one thread takes a step on its own pair. -/
theorem after_step (after : ∀ k > m, Waiting k (c.pairs k) (c.pc k)) (hw : Waiting i p pc) :
    ∀ k > m, Waiting k ((setPc (setPair c i p) i pc).pairs k)
      ((setPc (setPair c i p) i pc).pc k) := by
  intro k hk
  rcases eq_or_ne k i with rfl | hne
  · simpa using hw
  · simpa [hne] using after k hk

/-- A step of a thread after the front, where no thread is running an action. -/
theorem gap_waiting (hlog : c.log = inOrder m) (before : ∀ k < m, c.pc k = .returned)
    (here : Passed m (c.pairs m) (c.pc m)) (after : ∀ k > m, Waiting k (c.pairs k) (c.pc k))
    (hgt : i > m) (hw : Waiting i p pc) : Front (setPc (setPair c i p) i pc) := by
  refine .gap m hlog (fun k hk => ?_) ?_ (after_step after hw)
  · simpa [show k ≠ i by omega] using before k hk
  · simpa [show m ≠ i by omega] using here

/-- A step of a thread after the front, where the thread `j` is running an action.  That thread may
be at the same pair, but knows nothing of it yet. -/
theorem runner_waiting {j : ℕ} (hj : j ≤ m) (runs : Runs m (c.pairs (m + 1)) (c.pc j) c.log)
    (before : ∀ k ≤ m, k ≠ j → c.pc k = .returned)
    (after : ∀ k > m, Waiting k (c.pairs k) (c.pc k)) (hgt : i > m)
    (hstate : (c.pairs i).state = .initial) (hw : Waiting i p pc) :
    Front (setPc (setPair c i p) i pc) := by
  have hne : j ≠ i := by omega
  refine .runner m j hj ?_ (fun k hk hkj => ?_) (after_step after hw)
  · rcases eq_or_ne (m + 1) i with rfl | hne'
    · simpa [hne] using runs.of_initial hstate
    · simpa [hne, hne'] using runs
  · simpa [show k ≠ i by omega] using before k hk hkj

/-- A step of the thread whose action is next, where no thread is running one. -/
theorem front_passed {m : ℕ} (hlog : c.log = inOrder m) (before : ∀ k < m, c.pc k = .returned)
    (after : ∀ k > m, Waiting k (c.pairs k) (c.pc k)) (hw : Passed m p pc ∨ pc = .tail m) :
    Front (setPc (setPair c m p) m pc) := by
  have hafter : ∀ k > m, Waiting k ((setPc (setPair c m p) m pc).pairs k)
      ((setPc (setPair c m p) m pc).pc k) := by
    intro k hk
    simpa [show k ≠ m by omega] using after k hk
  rcases hw with hw | rfl
  · refine .gap m hlog (fun k hk => ?_) (by simpa using hw) hafter
    simpa [show k ≠ m by omega] using before k hk
  · refine .runner m m (Nat.le_refl m) ?_ (fun k hk hne => ?_) hafter
    · simpa [hlog] using Runs.tail
    · simpa [hne] using before k (by omega)

/-- The thread at the front only moves on. -/
theorem front_runner {m : ℕ} (hi : i ≤ m) (before : ∀ k ≤ m, k ≠ i → c.pc k = .returned)
    (after : ∀ k > m, Waiting k (c.pairs k) (c.pc k)) (hpc : c'.pc = Function.update c.pc i pc)
    (hpairs : c'.pairs = c.pairs) (runs : Runs m (c.pairs (m + 1)) pc c'.log) : Front c' := by
  refine .runner m i hi ?_ (fun k hk hne => ?_) (fun k hk => ?_)
  · rw [hpairs, hpc, Function.update_self]
    exact runs
  · rw [hpc, Function.update_of_ne hne]
    exact before k hk hne
  · rw [hpc, hpairs, Function.update_of_ne (by omega)]
    exact after k hk

/-- The first side of the next pair has come before the second one: it leaves the pair. -/
theorem front_leave {m : ℕ} (hi : i ≤ m) (hlog : c.log = inOrder (m + 1))
    (before : ∀ k ≤ m, k ≠ i → c.pc k = .returned)
    (after : ∀ k > m, Waiting k (c.pairs k) (c.pc k))
    (hstate : (c.pairs (m + 1)).state = .initial) :
    Front (setPc (setPair c (m + 1) { c.pairs (m + 1) with state := .runSecondCallsSecond }) i
      .returned) := by
  refine .gap (m + 1) hlog (fun k hk => ?_) ?_ (fun k hk => ?_)
  · rcases eq_or_ne k i with rfl | hne
    · simp
    · simpa [hne] using before k (by omega) hne
  · have hw := after (m + 1) (by omega)
    simp only [setPc_pairs, setPair_pairs, setPc_pc, setPair_pc, if_true,
      if_neg (show m + 1 ≠ i by omega)]
    generalize c.pairs (m + 1) = p at hw hstate ⊢
    generalize c.pc (m + 1) = pc at hw ⊢
    cases hw with
    | idle => exact .idle
    | load => exact .load
    | store => exact .store
    | cas => exact .cas
    | left => simp at hstate
  · simpa [show k ≠ m + 1 by omega, show k ≠ i by omega] using after k (by omega)

/-- The second side of the next pair has come before the first one: the thread goes on with the
continuation it has left. -/
theorem front_chain {m : ℕ} (hi : i ≤ m) (hlog : c.log = inOrder (m + 1))
    (before : ∀ k ≤ m, k ≠ i → c.pc k = .returned)
    (after : ∀ k > m, Waiting k (c.pairs k) (c.pc k))
    (hstate : (c.pairs (m + 1)).state = .runFirstCallsSecond) :
    Front (setPc (setPair c (m + 1) { c.pairs (m + 1) with second := none }) i
      (resume (c.pairs (m + 1)).second)) := by
  have hw := after (m + 1) (by omega)
  obtain ⟨hsecond, hpc⟩ : (c.pairs (m + 1)).second = some (m + 1) ∧ c.pc (m + 1) = .returned := by
    generalize c.pairs (m + 1) = p at hw hstate ⊢
    generalize c.pc (m + 1) = pc at hw ⊢
    cases hw with
    | left => exact ⟨rfl, rfl⟩
    | _ => simp [OrderedActionPair.new] at hstate
  rw [hsecond, resume]
  refine .runner (m + 1) i (by omega) ?_ (fun k hk hne => ?_) (fun k hk => ?_)
  · simp only [setPc_pc, setPc_log, setPair_log, if_true, hlog]
    exact .tail
  · rcases eq_or_ne k (m + 1) with rfl | hne'
    · simpa [hne] using hpc
    · simpa [hne] using before k (by omega) hne
  · simpa [show k ≠ m + 1 by omega, show k ≠ i by omega] using after k (by omega)

/-- The thread at the front takes a step: it runs the action, or meets the second side of the next
pair. -/
theorem advance_runner {m : ℕ} (hi : i ≤ m) (runs : Runs m (c.pairs (m + 1)) (c.pc i) c.log)
    (before : ∀ k ≤ m, k ≠ i → c.pc k = .returned)
    (after : ∀ k > m, Waiting k (c.pairs k) (c.pc k)) (h : advance c i spurious = some c') :
    Front c' := by
  rw [advance] at h
  -- where the runner is decides what its step does
  generalize hpc : c.pc i = pc at runs h
  generalize hlog : c.log = log at runs
  cases runs with
  | tail =>
      obtain rfl : _ = c' := by simpa using h
      refine front_runner hi before after rfl rfl ?_
      simpa [hlog] using Runs.running
  | running =>
      obtain rfl : _ = c' := by simpa using h
      refine front_runner hi before after rfl rfl ?_
      simpa [hlog] using Runs.firstLoad (m := m)
  | firstLoad =>
      obtain rfl : _ = c' := by simpa using h
      refine front_runner hi before after rfl rfl ?_
      rw [setPc_log, hlog]
      exact .first _ ((after (m + 1) (by omega)).state.imp id fun hstate => ⟨hstate, hstate⟩)
  | first current hcurrent =>
      rcases hcurrent with rfl | ⟨rfl, hstate⟩
      · have hstate := (after (m + 1) (by omega)).state
        by_cases hcas : (c.pairs (m + 1)).state = .initial ∧ spurious = false
        · obtain rfl : _ = c' := by
            simpa [OrderedActionPair.compareExchangeWeak, hcas] using h
          exact front_leave hi hlog before after hcas.1
        · -- The exchange has failed, and the thread knows the state that made it fail.
          obtain rfl : _ = c' := by
            simpa [OrderedActionPair.compareExchangeWeak, hcas] using h
          refine front_runner hi before after rfl rfl ?_
          rw [setPc_log, hlog]
          exact .first _ (hstate.imp id fun hstate => ⟨hstate, hstate⟩)
      · obtain rfl : _ = c' := by simpa using h
        exact front_chain hi hlog before after hstate

/-- Every atomic step keeps or moves the front. -/
theorem advance_front (hf : Front c) (h : advance c i spurious = some c') : Front c' := by
  cases hf with
  | gap m hlog before here after =>
      rcases Nat.lt_trichotomy i m with hlt | rfl | hgt
      · rw [advance_returned (before i hlt)] at h
        simp at h
      · obtain ⟨p, pc, hw, rfl⟩ := advance_passed here h
        exact front_passed hlog before after hw
      · obtain ⟨-, p, pc, hw, rfl⟩ := advance_waiting (after i hgt) h
        exact gap_waiting hlog before here after hgt hw
  | runner m j hj runs before after =>
      rcases eq_or_ne i j with rfl | hne
      · exact advance_runner hj runs before after h
      rcases Nat.lt_or_ge m i with hgt | hle
      · obtain ⟨hstate, p, pc, hw, rfl⟩ := advance_waiting (after i hgt) h
        exact runner_waiting hj runs before after hgt hstate hw
      · rw [advance_returned (before i hle hne)] at h
        simp at h

/-- The invocation of a wrapper keeps the front: its thread comes to a pair that waits for it. -/
theorem invoke_front (hf : Front c) (hidle : c.pc k = .idle) : Front (setPc c k .load) := by
  have hself : setPc c k .load = setPc (setPair c k (c.pairs k)) k .load := by rw [setPair_self]
  rw [hself]
  have hload (hw : Waiting k (c.pairs k) (c.pc k)) :
      (c.pairs k).state = .initial ∧ Waiting k (c.pairs k) .load := by
    rw [hidle] at hw
    generalize c.pairs k = p at hw ⊢
    cases hw with
    | idle => exact ⟨rfl, .load⟩
  cases hf with
  | gap m hlog before here after =>
      -- the threads before the gap have returned, those behind it wait
      rcases Nat.lt_trichotomy k m with hlt | rfl | hgt
      · have hpc := before k hlt
        simp [hidle] at hpc
      · refine front_passed hlog before after (.inl ?_)
        rw [hidle] at here
        generalize c.pairs k = p at here ⊢
        cases here with
        | idle => exact .load
      · exact gap_waiting hlog before here after hgt (hload (after k hgt)).2
  | runner m j hj runs before after =>
      rcases Nat.lt_or_ge m k with hgt | hle
      · have hw := hload (after k hgt)
        exact runner_waiting hj runs before after hgt hw.1 hw.2
      · rcases eq_or_ne k j with rfl | hne
        · rw [hidle] at runs
          cases runs
        · have hpc := before k hle hne
          simp [hidle] at hpc

/-! ### Runs of the sequence -/

/-- The sequence between two steps. -/
structure Inv (c : State) : Prop where
  front : Front c
  /-- Only what has been wrapped is invoked. -/
  invoked : ∀ k, c.pc k ≠ .idle → k < c.wrapped

/-- A step of an invocation is one of its own thread, and only of an invocation that is under way.
-/
theorem advance_frame (h : advance c i spurious = some c') :
    c.pc i ≠ .idle ∧ c'.wrapped = c.wrapped ∧ ∀ k ≠ i, c'.pc k = c.pc k := by
  have hset {c₁ : State} {pc : Pc} (hc' : setPc c₁ i pc = c') (hw : c₁.wrapped = c.wrapped)
      (hpc : c₁.pc = c.pc) : c'.wrapped = c.wrapped ∧ ∀ k ≠ i, c'.pc k = c.pc k := by
    subst hc'
    exact ⟨hw, fun k hk => by rw [setPc_pc, if_neg hk, hpc]⟩
  rw [advance] at h
  cases hpc : c.pc i <;> simp only [hpc, reduceCtorEq, Option.some.injEq] at h
  case load =>
      refine ⟨nofun, ?_⟩
      split at h <;> exact hset (Option.some.inj h) rfl rfl
  case cas current =>
      refine ⟨nofun, ?_⟩
      split at h
      · exact hset (Option.some.inj h) rfl rfl
      · split at h <;> exact hset (Option.some.inj h) rfl rfl
  case first k current =>
      refine ⟨nofun, ?_⟩
      split at h
      · exact hset (Option.some.inj h) rfl rfl
      · split at h <;> exact hset (Option.some.inj h) rfl rfl
  all_goals exact ⟨nofun, hset h rfl rfl⟩

theorem step_inv (hc : Inv c) {a : Act} (h : step c a = some c') : Inv c' := by
  cases a with
  | wrapNext =>
      obtain rfl : _ = c' := by simpa [step] using h
      refine ⟨?_, fun k hk => Nat.lt_succ_of_lt (hc.invoked k hk)⟩
      cases hc.front with
      | gap m hlog before here after => exact .gap m hlog before here after
      | runner m i hi runs before after => exact .runner m i hi runs before after
  | invoke k =>
      obtain ⟨⟨hk, hidle⟩, rfl⟩ : (k < c.wrapped ∧ c.pc k = .idle) ∧ setPc c k .load = c' := by
        simpa [step] using h
      refine ⟨invoke_front hc.front hidle, fun l hl => ?_⟩
      rcases eq_or_ne l k with rfl | hne
      · exact hk
      · rw [setPc_pc, if_neg hne] at hl
        exact hc.invoked l hl
  | advance i spurious =>
      have hframe := advance_frame h
      refine ⟨advance_front hc.front h, fun l hl => ?_⟩
      rw [hframe.2.1]
      rcases eq_or_ne l i with rfl | hne
      · exact hc.invoked l hframe.1
      · rw [hframe.2.2 l hne] at hl
        exact hc.invoked l hl

theorem init_inv {failures : List Bool}
    (hp : OrderedActionPair.runFirst .new .initial failures = some p) :
    Inv (.init p) := by
  obtain rfl := OrderedActionPair.runFirst_new hp
  refine ⟨.gap 0 rfl (fun k hk => absurd hk (Nat.not_lt_zero k)) .idle (fun k hk => ?_), ?_⟩
  · simp only [State.init, if_neg (show k ≠ 0 by omega)]
    exact .idle
  · intro k hk
    exact absurd rfl hk

/-- An action before the front has been wrapped. -/
theorem Inv.le_wrapped (hc : Inv c) (h : ∀ k < m, c.pc k ≠ .idle) : m ≤ c.wrapped := by
  cases m with
  | zero => exact Nat.zero_le _
  | succ m => exact hc.invoked m (h m (Nat.lt_succ_self m))

theorem inOrder_mono {n : ℕ} (h : m ≤ n) : inOrder m <+: inOrder n := by
  induction h with
  | refl => exact List.prefix_refl _
  | step _ ih => exact ih.trans (by rw [inOrder_succ]; exact List.prefix_append _ _)

/-- What has been logged is a part of the actions run one after the other. -/
theorem Runs.log_isPrefix {next : OrderedActionPair} {log : List Event} (hr : Runs m next pc log) :
    pc ≠ .idle ∧ pc ≠ .returned ∧ log <+: inOrder (m + 1) := by
  cases hr with
  | tail => exact ⟨nofun, nofun, inOrder_mono (Nat.le_succ m)⟩
  | running =>
      refine ⟨nofun, nofun, [.finish m], ?_⟩
      rw [inOrder_succ, List.append_assoc]
      rfl
  | firstLoad => exact ⟨nofun, nofun, List.prefix_refl _⟩
  | first => exact ⟨nofun, nofun, List.prefix_refl _⟩

theorem Passed.ne_returned (hw : Passed k p pc) : pc ≠ .returned := by
  cases hw <;> nofun

theorem Inv.log_isPrefix (hc : Inv c) : c.log <+: inOrder c.wrapped := by
  cases hc.front with
  | gap m hlog before here after =>
      rw [hlog]
      exact inOrder_mono (hc.le_wrapped fun k hk => by simp [before k hk])
  | runner m i hi runs before after =>
      obtain ⟨hidle, -, hlog⟩ := runs.log_isPrefix
      refine hlog.trans (inOrder_mono (hc.le_wrapped fun k hk => ?_))
      rcases eq_or_ne k i with rfl | hne
      · exact hidle
      · simp [before k (by omega) hne]

/-- Where no invocation is under way, the front is at the first action that has not been invoked. -/
theorem Inv.quiet (hc : Inv c) (hquiet : ∀ k, c.pc k = .idle ∨ c.pc k = .returned) :
    ∃ m ≤ c.wrapped, c.log = inOrder m ∧ (∀ k < m, c.pc k = .returned) ∧ c.pc m = .idle := by
  cases hc.front with
  | gap m hlog before here after =>
      have hle := hc.le_wrapped (m := m) fun k hk => by simp [before k hk]
      exact ⟨m, hle, hlog, before, (hquiet m).resolve_right here.ne_returned⟩
  | runner m i hi runs before after =>
      obtain ⟨hidle, hreturned, -⟩ := runs.log_isPrefix
      exact absurd (hquiet i) (not_or.2 ⟨hidle, hreturned⟩)

end Sequence

/-- However the wrappers of a sequence are invoked and whatever their threads do, what has run so
far is a part of the wrapped actions run one after the other; and where no invocation is under way,
all actions have run up to the first one that has not been invoked. -/
theorem actions_run_in_order (failures : List Bool) (p : OrderedActionPair)
    (hp : OrderedActionPair.runFirst .new .initial failures = some p) (acts : List Sequence.Act)
    (c : Sequence.State) (h : Run.run Sequence.step (.init p) acts = some c) :
    c.log <+: Sequence.inOrder c.wrapped ∧
      ((∀ k, c.pc k = .idle ∨ c.pc k = .returned) →
        ∃ m ≤ c.wrapped, c.log = Sequence.inOrder m ∧ (∀ k < m, c.pc k = .returned) ∧
          c.pc m = .idle) := by
  have hc : Sequence.Inv c :=
    Run.run_invariant (fun _ _ _ hc h => Sequence.step_inv hc h) h (Sequence.init_inv hp)
  exact ⟨hc.log_isPrefix, hc.quiet⟩

/-- Three actions, of which the second is invoked before the first and the third is not: its thread
leaves it behind, and the other thread runs both, after an exchange that has failed spuriously. -/
theorem actions_run_in_order_chained :
    ∃ c, Run.run Sequence.step (.init ⟨.runSecondCallsSecond, none⟩)
        ([.wrapNext, .wrapNext, .wrapNext, .invoke 1] ++
          List.replicate 3 (.advance 1 false) ++ [.invoke 0] ++
          List.replicate 8 (.advance 0 false) ++ [.advance 0 true, .advance 0 false]) = some c ∧
      c.log <+: Sequence.inOrder c.wrapped := by
  have hsome : (Run.run Sequence.step (.init ⟨.runSecondCallsSecond, none⟩)
        ([.wrapNext, .wrapNext, .wrapNext, .invoke 1] ++
          List.replicate 3 (.advance 1 false) ++ [.invoke 0] ++
          List.replicate 8 (.advance 0 false) ++ [.advance 0 true, .advance 0 false])).isSome := by
    decide +kernel
  obtain ⟨c, h⟩ := Option.isSome_iff_exists.1 hsome
  exact ⟨c, h, (actions_run_in_order [true, false] _ rfl _ c h).1⟩

end Hittop
