/-
**The asynchronous queue** (`concurrent/async_queue.h`).

Items are pushed and handlers are waiting, whichever comes first.  A handler that has to wait is
kept in a consumer object, whose flag `active_` is exchanged by whoever wants to call it: a push
that has taken the object from the queue, or the canceler that `async_pop` has returned.  The mutex
is not held while a handler is called, so that calls interleave: a step is a section under the
mutex, an exchange of a flag, the invocation of a handler or the return of a call.

Main definitions:

* `Hittop.AsyncQueue.InsertOp` — the classes `Push` and `Emplace`;
* `Hittop.AsyncQueue.Call` — a call that has not returned, and where it is;
* `Hittop.AsyncQueue.State`, `Hittop.AsyncQueue.Act`, `Hittop.AsyncQueue.step` — the system.

Main results:

* `Hittop.AsyncQueue.advance_cases` — the next step of a call is one of twelve.
-/

import Hittop.Library.Pool
import Hittop.Library.Run

set_option relaxedAutoImplicit false
set_option autoImplicit false

namespace Hittop.AsyncQueue

/-- An item with the number of the call of `push` or `emplace` that brings it. -/
structure Item (T : Type) where
  call : ℕ
  value : T
  deriving DecidableEq

/-- `Push` and `Emplace`: a push keeps the reference to its argument and, once it has dispatched to
a consumer, a copy. -/
inductive InsertOp (T : Type)
  | push (item : Item T) (copy : Option (Item T))
  | emplace (item : Item T)
  deriving DecidableEq

namespace InsertOp

variable {T : Type}

/-- What `DispatchTo` does before it calls `Consume`. -/
def dispatch : InsertOp T → InsertOp T
  | push item none => push item (some item)
  | push item (some copy) => push item (some copy)
  | emplace item => emplace item

/-- The item that `Consume` is called with, and that `Insert` puts into the inventory. -/
def item : InsertOp T → Item T
  | push _ (some copy) => copy
  | push item none => item
  | emplace item => item

@[simp] theorem item_dispatch (op : InsertOp T) : op.dispatch.item = op.item := by
  rcases op with ⟨i, _ | j⟩ | i <;> rfl

end InsertOp

/-- What a call returns. -/
inductive Result
  /-- `push` and `emplace` return nothing. -/
  | inserted
  /-- `async_pop` returns the canceler of a consumer, or an empty function. -/
  | canceler (consumer : Option ℕ)
  /-- The call number `id` of a canceler returns a truth value. -/
  | canceled (id consumer : ℕ) (result : Bool)
  deriving DecidableEq

/-- A call that has not returned.  Calls of `async_pop` are numbered, and so are their handlers and
the consumers that hold them. -/
inductive Call (T : Type)
  /-- `GenericInsert` is about to take the mutex. -/
  | insert (op : InsertOp T)
  /-- It has taken a consumer and released the mutex, and is about to exchange the flag. -/
  | dispatch (op : InsertOp T) (consumer : ℕ)
  /-- The flag was set; it is about to invoke the handler. -/
  | consume (op : InsertOp T) (consumer : ℕ)
  /-- `async_pop` is about to take the mutex. -/
  | pop (handler : ℕ)
  /-- It has taken an item and released the mutex, and is about to invoke its handler. -/
  | deliver (handler : ℕ) (item : Item T)
  /-- A canceler is about to exchange the flag. -/
  | cancel (id consumer : ℕ)
  /-- The flag was set; it is about to invoke the handler. -/
  | abort (id consumer : ℕ)
  /-- The call is about to return. -/
  | finished (result : Result)
  deriving DecidableEq

/-- The argument of a handler: an item, or `operation_aborted`, by the call number `id` of a
canceler. -/
inductive Argument (T : Type)
  | item (item : Item T)
  | aborted (id : ℕ)
  deriving DecidableEq

structure Invocation (T : Type) where
  handler : ℕ
  argument : Argument T
  deriving DecidableEq

namespace Argument

variable {T : Type}

def received : Argument T → Option (Item T)
  | item i => some i
  | aborted _ => none

end Argument

structure State (T : Type) where
  inventory : List (Item T)
  consumers : List ℕ
  /-- The members `active_` and `f_` of the consumers. -/
  active : ℕ → Bool
  f : ℕ → Option ℕ
  calls : List (Call T)
  /-- The items pushed so far, in the order of the calls. -/
  pushed : List (Item T)
  /-- How many calls of `async_pop` and of cancelers there have been. -/
  pops : ℕ
  cancels : ℕ
  /-- The handlers that have been invoked, in order. -/
  invoked : List (Invocation T)
  returned : List Result

inductive Act (T : Type)
  | push (value : T)
  | emplace (value : T)
  | asyncPop
  | callCanceler (consumer : ℕ)
  /-- A call takes its next step. -/
  | advance (call : Call T)

namespace State

variable {T : Type}

/-- A new queue. -/
def init : State T where
  inventory := []
  consumers := []
  active := fun _ => false
  f := fun _ => none
  calls := []
  pushed := []
  pops := 0
  cancels := 0
  invoked := []
  returned := []

/-- The items that handlers have received, in the order in which the handlers were called. -/
def received (c : State T) : List (Item T) := c.invoked.filterMap fun x => x.argument.received

end State

variable {T : Type} [DecidableEq T]

/-- The next step of a call. -/
def advance (c : State T) (x : Call T) : Option (State T) :=
  match x with
  | .insert op =>
      match c.consumers with
      | [] => some { c with
          inventory := c.inventory ++ [op.item]
          calls := Pool.replace c.calls x [.finished .inserted] }
      | consumer :: consumers => some { c with
          consumers
          calls := Pool.replace c.calls x [.dispatch op consumer] }
  | .dispatch op consumer =>
      if c.active consumer then some { c with
        active := Function.update c.active consumer false
        calls := Pool.replace c.calls x [.consume op.dispatch consumer] }
      else some { c with calls := Pool.replace c.calls x [.insert op.dispatch] }
  | .consume op consumer =>
      (c.f consumer).map fun handler => { c with
        f := Function.update c.f consumer none
        invoked := c.invoked ++ [⟨handler, .item op.item⟩]
        calls := Pool.replace c.calls x [.finished .inserted] }
  | .pop handler =>
      match c.inventory with
      | item :: inventory => some { c with
          inventory
          calls := Pool.replace c.calls x [.deliver handler item] }
      | [] => some { c with
          consumers := c.consumers ++ [handler]
          active := Function.update c.active handler true
          f := Function.update c.f handler (some handler)
          calls := Pool.replace c.calls x [.finished (.canceler (some handler))] }
  | .deliver handler item => some { c with
      invoked := c.invoked ++ [⟨handler, .item item⟩]
      calls := Pool.replace c.calls x [.finished (.canceler none)] }
  | .cancel id consumer =>
      if c.active consumer then some { c with
        active := Function.update c.active consumer false
        calls := Pool.replace c.calls x [.abort id consumer] }
      else some { c with calls := Pool.replace c.calls x [.finished (.canceled id consumer false)] }
  | .abort id consumer =>
      (c.f consumer).map fun handler => { c with
        f := Function.update c.f consumer none
        invoked := c.invoked ++ [⟨handler, .aborted id⟩]
        calls := Pool.replace c.calls x [.finished (.canceled id consumer true)] }
  | .finished result => some { c with
      returned := c.returned ++ [result]
      calls := Pool.replace c.calls x [] }

/-- A call of `push` or `emplace` begins. -/
def beginInsert (c : State T) (op : InsertOp T) : State T :=
  { c with pushed := c.pushed ++ [op.item], calls := c.calls ++ [.insert op] }

/-- A call begins, or one that has begun takes its next step.  A canceler can be called when
`async_pop` has returned it, any number of times. -/
def step (c : State T) : Act T → Option (State T)
  | .push value => some (beginInsert c (.push ⟨c.pushed.length, value⟩ none))
  | .emplace value => some (beginInsert c (.emplace ⟨c.pushed.length, value⟩))
  | .asyncPop => some { c with
      pops := c.pops + 1
      calls := c.calls ++ [.pop c.pops] }
  | .callCanceler consumer =>
      if .canceler (some consumer) ∈ c.returned then some { c with
        cancels := c.cancels + 1
        calls := c.calls ++ [.cancel c.cancels consumer] }
      else none
  | .advance x => if x ∈ c.calls then advance c x else none

/-! ### All that a step can be -/

/-- The steps of the calls in flight. -/
inductive Step (c : State T) : State T → Prop
  | store (op : InsertOp T) (hx : .insert op ∈ c.calls) (hnil : c.consumers = []) : Step c { c with
      inventory := c.inventory ++ [op.item]
      calls := Pool.replace c.calls (.insert op) [.finished .inserted] }
  | take_consumer (op : InsertOp T) (consumer : ℕ) (consumers : List ℕ)
      (hx : .insert op ∈ c.calls) (hcons : c.consumers = consumer :: consumers) : Step c { c with
        consumers
        calls := Pool.replace c.calls (.insert op) [.dispatch op consumer] }
  | claim (op : InsertOp T) (consumer : ℕ) (hx : .dispatch op consumer ∈ c.calls)
      (hactive : c.active consumer = true) : Step c { c with
        active := Function.update c.active consumer false
        calls := Pool.replace c.calls (.dispatch op consumer) [.consume op.dispatch consumer] }
  | miss (op : InsertOp T) (consumer : ℕ) (hx : .dispatch op consumer ∈ c.calls)
      (hactive : c.active consumer = false) : Step c { c with
        calls := Pool.replace c.calls (.dispatch op consumer) [.insert op.dispatch] }
  | consume (op : InsertOp T) (consumer handler : ℕ) (hx : .consume op consumer ∈ c.calls)
      (hf : c.f consumer = some handler) : Step c { c with
        f := Function.update c.f consumer none
        invoked := c.invoked ++ [⟨handler, .item op.item⟩]
        calls := Pool.replace c.calls (.consume op consumer) [.finished .inserted] }
  | take_item (handler : ℕ) (item : Item T) (inventory : List (Item T))
      (hx : .pop handler ∈ c.calls) (hcons : c.inventory = item :: inventory) : Step c { c with
        inventory
        calls := Pool.replace c.calls (.pop handler) [.deliver handler item] }
  | wait (handler : ℕ) (hx : .pop handler ∈ c.calls) (hnil : c.inventory = []) : Step c { c with
      consumers := c.consumers ++ [handler]
      active := Function.update c.active handler true
      f := Function.update c.f handler (some handler)
      calls := Pool.replace c.calls (.pop handler) [.finished (.canceler (some handler))] }
  | deliver (handler : ℕ) (item : Item T) (hx : .deliver handler item ∈ c.calls) : Step c { c with
      invoked := c.invoked ++ [⟨handler, .item item⟩]
      calls := Pool.replace c.calls (.deliver handler item) [.finished (.canceler none)] }
  | claim_abort (id consumer : ℕ) (hx : .cancel id consumer ∈ c.calls)
      (hactive : c.active consumer = true) : Step c { c with
        active := Function.update c.active consumer false
        calls := Pool.replace c.calls (.cancel id consumer) [.abort id consumer] }
  | miss_abort (id consumer : ℕ) (hx : .cancel id consumer ∈ c.calls)
      (hactive : c.active consumer = false) : Step c { c with
        calls := Pool.replace c.calls (.cancel id consumer)
          [.finished (.canceled id consumer false)] }
  | abort (id consumer handler : ℕ) (hx : .abort id consumer ∈ c.calls)
      (hf : c.f consumer = some handler) : Step c { c with
        f := Function.update c.f consumer none
        invoked := c.invoked ++ [⟨handler, .aborted id⟩]
        calls := Pool.replace c.calls (.abort id consumer)
          [.finished (.canceled id consumer true)] }
  | finish (result : Result) (hx : .finished result ∈ c.calls) : Step c { c with
      returned := c.returned ++ [result]
      calls := Pool.replace c.calls (.finished result) [] }

theorem advance_cases {c c' : State T} {x : Call T} (hx : x ∈ c.calls)
    (h : advance c x = some c') : Step c c' := by
  cases x with
  | insert op =>
      rw [advance] at h
      split at h
      · rename_i hnil
        cases h
        exact .store op hx hnil
      · rename_i consumer consumers hcons
        cases h
        exact .take_consumer op consumer consumers hx hcons
  | dispatch op consumer =>
      rw [advance] at h
      split at h
      · rename_i hactive
        cases h
        exact .claim op consumer hx hactive
      · rename_i hactive
        cases h
        exact .miss op consumer hx (Bool.eq_false_iff.2 hactive)
  | consume op consumer =>
      obtain ⟨handler, hf, h⟩ := Option.map_eq_some_iff.1 h
      cases h
      exact .consume op consumer handler hx hf
  | pop handler =>
      rw [advance] at h
      split at h
      · rename_i item inventory hcons
        cases h
        exact .take_item handler item inventory hx hcons
      · rename_i hnil
        cases h
        exact .wait handler hx hnil
  | deliver handler item =>
      cases h
      exact .deliver handler item hx
  | cancel id consumer =>
      rw [advance] at h
      split at h
      · rename_i hactive
        cases h
        exact .claim_abort id consumer hx hactive
      · rename_i hactive
        cases h
        exact .miss_abort id consumer hx (Bool.eq_false_iff.2 hactive)
  | abort id consumer =>
      obtain ⟨handler, hf, h⟩ := Option.map_eq_some_iff.1 h
      cases h
      exact .abort id consumer handler hx hf
  | finished result =>
      cases h
      exact .finish result hx

end Hittop.AsyncQueue
