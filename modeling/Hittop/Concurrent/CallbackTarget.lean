/-
**Callback targets** (`concurrent/callback_target.h`).

A target makes callbacks that schedule calls of its member functions on its own strand.  Callbacks
and scheduled tasks hold pointers to the target, which is deleted, with its strand, by whoever gives
up the last of them: this may be a task that runs inside of the very call that schedules it.

The strand may be any.  It is handed tasks by the calls of callbacks, and then copies, runs and
destroys what it has as it likes: in any order, on any thread, inside of the calls or later.  The
counter of the target is a parameter.

Main definitions:

* `Hittop.CallbackTarget.Callback` — `PointerRetainedCallback` and `PointerTransferredCallback`,
  with `PostScheduler` and `DispatchScheduler`;
* `Hittop.CallbackTarget.State`, `Hittop.CallbackTarget.Act`, `Hittop.CallbackTarget.step` — a
  target with its callbacks, the calls of these, and the tasks that the strand has;
* `Hittop.CallbackTarget.State.holders` — the pointers that are held.

Main results:

* `Hittop.CallbackTarget.step_outcome` — what a step does.
-/

import Hittop.Library.Pool
import Hittop.Library.RefCount
import Hittop.Library.Run

set_option relaxedAutoImplicit false
set_option autoImplicit false

namespace Hittop

namespace CallbackTarget

/-- Whether a call keeps the pointer of its callback: `PointerRetainedCallback` or
`PointerTransferredCallback`. -/
inductive Retention
  | retained
  | transferred
  deriving DecidableEq, Repr

/-- `PostScheduler` or `DispatchScheduler`. -/
inductive Scheduler
  | post
  | dispatch
  deriving DecidableEq, Repr

/-- A callback, with a number of its own.  `obj` tells whether `obj_` points to the target. -/
structure Callback where
  name : ℕ
  retention : Retention
  scheduler : Scheduler
  obj : Bool
  fn : ℕ
  deriving DecidableEq, Repr

variable (A R : Type)

/-- What `MakeCallbackTask` makes, apart from the pointer it holds: the member function and its
arguments.  Tasks are numbered, and copies of a task have its number. -/
structure Task where
  id : ℕ
  fn : ℕ
  args : A
  deriving DecidableEq

/-- Where the call of a callback is. -/
inductive Pc
  /-- The task has been made, and `schedule` is about to be called. -/
  | entered
  /-- The strand has been handed the task. -/
  | scheduled
  deriving DecidableEq, Repr

/-- A call of a callback that has not returned. -/
structure Call where
  task : Task A
  callback : ℕ
  retention : Retention
  scheduler : Scheduler
  pc : Pc
  deriving DecidableEq

/-- A call of a callback that has found a pointer in it. -/
structure Invocation where
  callback : ℕ
  retention : Retention
  scheduler : Scheduler
  task : Task A
  deriving DecidableEq

/-- A call of `post` or `dispatch` of the strand. -/
structure Handover where
  scheduler : Scheduler
  task : Task A
  deriving DecidableEq

structure State where
  target : R
  /-- The pointers to the target that are neither in callbacks nor in calls and tasks. -/
  owners : ℕ
  callbacks : List Callback
  /-- How many callbacks there have been. -/
  made : ℕ
  calls : List (Call A)
  /-- The tasks that the strand has, and those of them that it is running. -/
  tasks : List (Task A)
  running : List (Task A)
  /-- An assertion has failed. -/
  aborted : Bool
  invoked : List (Invocation A)
  /-- What the strand has been handed, and what it has begun to run. -/
  passed : List (Handover A)
  begun : List (Task A)

variable {A R}

inductive Act (A : Type)
  /-- Someone who has a pointer copies it, or gives it up. -/
  | share
  | drop
  /-- `ListenerCallback`, `OneShotCallback`, or one of them with `Later`. -/
  | make (retention : Retention) (scheduler : Scheduler) (fn : ℕ)
  | copy (b : Callback)
  | move (b : Callback)
  | destroy (b : Callback)
  /-- A callback is called. -/
  | invoke (b : Callback) (args : A)
  /-- A call calls `schedule`. -/
  | schedule (x : Call A)
  /-- A call returns. -/
  | leave (x : Call A)
  /-- The strand copies a task, or destroys one. -/
  | copyTask (t : Task A)
  | destroyTask (t : Task A)
  /-- The strand begins to run a task, or is done with it. -/
  | start (t : Task A)
  | finish (t : Task A)

/-- The pointers that a call holds but for that in its task: `local_obj`. -/
def Call.local (x : Call A) : ℕ :=
  match x.retention with
  | .retained => 0
  | .transferred => 1

/-- The pointers that a call holds, with that in its task as long as it has not scheduled it. -/
def Call.holds (x : Call A) : ℕ :=
  match x.pc with
  | .entered => x.local + 1
  | .scheduled => x.local

theorem Call.holds_entered {x : Call A} (h : x.pc = .entered) : x.holds = x.local + 1 := by
  rw [Call.holds, h]

theorem Call.holds_scheduled {x : Call A} (h : x.pc = .scheduled) : x.holds = x.local := by
  rw [Call.holds, h]

def Callback.holds (b : Callback) : ℕ := if b.obj then 1 else 0

namespace State

/-- `new Derived`, and a pointer to it. -/
def init (N : RefCounter R) : State A R where
  target := N.addRef N.initial
  owners := 1
  callbacks := []
  made := 0
  calls := []
  tasks := []
  running := []
  aborted := false
  invoked := []
  passed := []
  begun := []

/-- The pointers to the target. -/
def holders (c : State A R) : ℕ :=
  c.owners + (c.callbacks.map Callback.holds).sum + (c.calls.map Call.holds).sum +
    c.tasks.length + c.running.length

/-- Some code with a pointer to the target is running. -/
def Reached (c : State A R) : Prop := 0 < c.owners ∨ c.running ≠ []

instance (c : State A R) : Decidable c.Reached := inferInstanceAs (Decidable (_ ∨ _))

end State

/-- The factories, which take a pointer for the callback. -/
def make (N : RefCounter R) (c : State A R) (retention : Retention) (scheduler : Scheduler)
    (fn : ℕ) : State A R :=
  { c with
    target := N.addRef c.target
    callbacks := c.callbacks ++ [⟨c.made, retention, scheduler, true, fn⟩]
    made := c.made + 1 }

/-- `operator()` up to the call of `schedule`.  Both policies copy the pointer for the task; a
one-shot callback loses its own to `local_obj`.  It is an assertion of the one-shot callback that
there is a pointer, and one of the pointer itself in a listener. -/
def invoke (N : RefCounter R) (c : State A R) (b : Callback) (args : A) : State A R :=
  let task : Task A := ⟨c.invoked.length, b.fn, args⟩
  if b.obj then { c with
    target := N.addRef c.target
    callbacks :=
      match b.retention with
      | .retained => c.callbacks
      | .transferred => Pool.replace c.callbacks b [{ b with obj := false }]
    calls := c.calls ++ [⟨task, b.name, b.retention, b.scheduler, .entered⟩]
    invoked := c.invoked ++ [⟨b.name, b.retention, b.scheduler, task⟩] }
  else { c with aborted := true }

variable [DecidableEq A]

/-- `PostScheduler::schedule` and `DispatchScheduler::schedule`: the task goes to the strand. -/
def schedule (c : State A R) (x : Call A) : State A R :=
  { c with
    calls := Pool.replace c.calls x [{ x with pc := .scheduled }]
    tasks := c.tasks ++ [x.task]
    passed := c.passed ++ [⟨x.scheduler, x.task⟩] }

/-- The end of a call: `local_obj` is destroyed. -/
def leave (N : RefCounter R) (c : State A R) (x : Call A) : State A R :=
  { c with
    target := match x.retention with
      | .retained => c.target
      | .transferred => N.release c.target
    calls := Pool.replace c.calls x [] }

def step (N : RefCounter R) (c : State A R) (a : Act A) : Option (State A R) :=
  if c.aborted then none
  else
    match a with
    | .share =>
        if c.Reached then some { c with target := N.addRef c.target, owners := c.owners + 1 }
        else none
    | .drop =>
        if 0 < c.owners then some { c with target := N.release c.target, owners := c.owners - 1 }
        else none
    | .make retention scheduler fn =>
        if c.Reached then some (make N c retention scheduler fn) else none
    | .copy b =>
        if b ∈ c.callbacks then some { c with
          target := if b.obj then N.addRef c.target else c.target
          callbacks := c.callbacks ++ [{ b with name := c.made }]
          made := c.made + 1 }
        else none
    | .move b =>
        if b ∈ c.callbacks then some { c with
          callbacks := Pool.replace c.callbacks b [{ b with obj := false }] ++
            [{ b with name := c.made }]
          made := c.made + 1 }
        else none
    | .destroy b =>
        if b ∈ c.callbacks then some { c with
          target := if b.obj then N.release c.target else c.target
          callbacks := Pool.replace c.callbacks b [] }
        else none
    | .invoke b args => if b ∈ c.callbacks then some (invoke N c b args) else none
    | .schedule x => if x ∈ c.calls ∧ x.pc = .entered then some (schedule c x) else none
    | .leave x => if x ∈ c.calls ∧ x.pc = .scheduled then some (leave N c x) else none
    | .copyTask t =>
        if t ∈ c.tasks ∨ t ∈ c.running then
          some { c with target := N.addRef c.target, tasks := c.tasks ++ [t] }
        else none
    | .destroyTask t =>
        if t ∈ c.tasks then
          some { c with target := N.release c.target, tasks := Pool.replace c.tasks t [] }
        else none
    | .start t =>
        if t ∈ c.tasks then some { c with
          tasks := Pool.replace c.tasks t []
          running := c.running ++ [t]
          begun := c.begun ++ [t] }
        else none
    | .finish t =>
        if t ∈ c.running then some { c with
          tasks := c.tasks ++ [t]
          running := Pool.replace c.running t [] }
        else none

/-! ### What a step does -/

/-- The steps that can be taken, with the state after each of them. -/
inductive Outcome (N : RefCounter R) (c : State A R) : Act A → State A R → Prop
  | share (hreached : c.Reached) :
      Outcome N c .share { c with target := N.addRef c.target, owners := c.owners + 1 }
  | drop (howners : 0 < c.owners) :
      Outcome N c .drop { c with target := N.release c.target, owners := c.owners - 1 }
  | make (hreached : c.Reached) (retention : Retention) (scheduler : Scheduler) (fn : ℕ) :
      Outcome N c (.make retention scheduler fn) (make N c retention scheduler fn)
  | copy (b : Callback) (hb : b ∈ c.callbacks) :
      Outcome N c (.copy b) { c with
        target := if b.obj then N.addRef c.target else c.target
        callbacks := c.callbacks ++ [{ b with name := c.made }]
        made := c.made + 1 }
  | move (b : Callback) (hb : b ∈ c.callbacks) :
      Outcome N c (.move b) { c with
        callbacks := Pool.replace c.callbacks b [{ b with obj := false }] ++
          [{ b with name := c.made }]
        made := c.made + 1 }
  | destroy (b : Callback) (hb : b ∈ c.callbacks) :
      Outcome N c (.destroy b) { c with
        target := if b.obj then N.release c.target else c.target
        callbacks := Pool.replace c.callbacks b [] }
  | listen (b : Callback) (hb : b ∈ c.callbacks) (hobj : b.obj = true)
      (hretained : b.retention = .retained) (args : A) :
      Outcome N c (.invoke b args) { c with
        target := N.addRef c.target
        calls := c.calls ++
          [⟨⟨c.invoked.length, b.fn, args⟩, b.name, .retained, b.scheduler, .entered⟩]
        invoked := c.invoked ++ [⟨b.name, .retained, b.scheduler, c.invoked.length, b.fn, args⟩] }
  | fire (b : Callback) (hb : b ∈ c.callbacks) (hobj : b.obj = true)
      (htransferred : b.retention = .transferred) (args : A) :
      Outcome N c (.invoke b args) { c with
        target := N.addRef c.target
        callbacks := Pool.replace c.callbacks b [{ b with obj := false }]
        calls := c.calls ++
          [⟨⟨c.invoked.length, b.fn, args⟩, b.name, .transferred, b.scheduler, .entered⟩]
        invoked := c.invoked ++
          [⟨b.name, .transferred, b.scheduler, c.invoked.length, b.fn, args⟩] }
  | abort (b : Callback) (hb : b ∈ c.callbacks) (hobj : b.obj = false) (args : A) :
      Outcome N c (.invoke b args) { c with aborted := true }
  | schedule (x : Call A) (hx : x ∈ c.calls) (hpc : x.pc = .entered) :
      Outcome N c (.schedule x) (schedule c x)
  | leave (x : Call A) (hx : x ∈ c.calls) (hpc : x.pc = .scheduled) :
      Outcome N c (.leave x) (leave N c x)
  | copyTask (t : Task A) (ht : t ∈ c.tasks ∨ t ∈ c.running) :
      Outcome N c (.copyTask t) { c with target := N.addRef c.target, tasks := c.tasks ++ [t] }
  | destroyTask (t : Task A) (ht : t ∈ c.tasks) :
      Outcome N c (.destroyTask t)
        { c with target := N.release c.target, tasks := Pool.replace c.tasks t [] }
  | start (t : Task A) (ht : t ∈ c.tasks) :
      Outcome N c (.start t) { c with
        tasks := Pool.replace c.tasks t []
        running := c.running ++ [t]
        begun := c.begun ++ [t] }
  | finish (t : Task A) (ht : t ∈ c.running) :
      Outcome N c (.finish t) { c with
        tasks := c.tasks ++ [t]
        running := Pool.replace c.running t [] }

variable {N : RefCounter R} {c c' : State A R} {a : Act A} {b : Callback} {x : Call A} {args : A}

theorem invoke_outcome (hb : b ∈ c.callbacks) :
    Outcome N c (.invoke b args) (invoke N c b args) := by
  obtain ⟨name, retention, scheduler, obj, fn⟩ := b
  cases obj with
  | false => exact .abort _ hb rfl args
  | true =>
      cases retention with
      | retained => exact .listen _ hb rfl rfl args
      | transferred => exact .fire _ hb rfl rfl args

theorem step_outcome (h : step N c a = some c') : Outcome N c a c' := by
  unfold step at h
  obtain ⟨-, h⟩ := Option.ite_none_left_eq_some.1 h
  cases a with
  | share =>
      obtain ⟨hreached, ⟨⟩⟩ := Option.ite_none_right_eq_some.1 h
      exact .share hreached
  | drop =>
      obtain ⟨howners, ⟨⟩⟩ := Option.ite_none_right_eq_some.1 h
      exact .drop howners
  | make retention scheduler fn =>
      obtain ⟨hreached, ⟨⟩⟩ := Option.ite_none_right_eq_some.1 h
      exact .make hreached retention scheduler fn
  | copy b =>
      obtain ⟨hb, ⟨⟩⟩ := Option.ite_none_right_eq_some.1 h
      exact .copy b hb
  | move b =>
      obtain ⟨hb, ⟨⟩⟩ := Option.ite_none_right_eq_some.1 h
      exact .move b hb
  | destroy b =>
      obtain ⟨hb, ⟨⟩⟩ := Option.ite_none_right_eq_some.1 h
      exact .destroy b hb
  | invoke b args =>
      obtain ⟨hb, h⟩ := Option.ite_none_right_eq_some.1 h
      obtain rfl := Option.some.inj h
      exact invoke_outcome hb
  | schedule x =>
      obtain ⟨⟨hx, hpc⟩, ⟨⟩⟩ := Option.ite_none_right_eq_some.1 h
      exact .schedule x hx hpc
  | leave x =>
      obtain ⟨⟨hx, hpc⟩, ⟨⟩⟩ := Option.ite_none_right_eq_some.1 h
      exact .leave x hx hpc
  | copyTask t =>
      obtain ⟨ht, ⟨⟩⟩ := Option.ite_none_right_eq_some.1 h
      exact .copyTask t ht
  | destroyTask t =>
      obtain ⟨ht, ⟨⟩⟩ := Option.ite_none_right_eq_some.1 h
      exact .destroyTask t ht
  | start t =>
      obtain ⟨ht, ⟨⟩⟩ := Option.ite_none_right_eq_some.1 h
      exact .start t ht
  | finish t =>
      obtain ⟨ht, ⟨⟩⟩ := Option.ite_none_right_eq_some.1 h
      exact .finish t ht

end CallbackTarget

end Hittop
