/-
**The queue comes to rest**, and has then matched as much as it could.

A push goes on from one consumer to the next while it meets cancelled ones, and takes each of them
from the queue; every other call takes a few steps.  So the calls in flight come to an end in
whatever order they take their steps, as long as no further calls begin.  A queue at rest holds no
item while a consumer can be called, and therefore as many handlers have received an item as there
are pushes, or as there are pops that have not been cancelled.

Main definitions:

* `Hittop.AsyncQueue.Call.remaining`, `Hittop.AsyncQueue.State.remaining` — a bound for the steps
  that are left;
* `Hittop.AsyncQueue.State.aborted` — the handlers that cancelers have invoked.

Main results:

* `Hittop.AsyncQueue.step_remaining` — every step of a call brings the queue closer to rest;
* `Hittop.queue_quiesces` — every schedule ends;
* `Hittop.queue_matches_most` — what has been matched when it has ended.
-/

import Hittop.Concurrent.Fifo
import Mathlib.Data.List.Perm.Subperm

set_option relaxedAutoImplicit false
set_option autoImplicit false

namespace Hittop.AsyncQueue

variable {T : Type}

/-- The steps that a call takes at most, but for those that a push takes with further consumers. -/
def Call.remaining : Call T → ℕ
  | insert _ => 3
  | dispatch _ _ => 4
  | consume _ _ => 2
  | pop _ => 4
  | deliver _ _ => 2
  | cancel _ _ => 3
  | abort _ _ => 2
  | finished _ => 1

namespace State

/-- The steps that the calls in flight take at most.  A consumer in the queue stands for the two
steps of a push that takes it and misses. -/
def remaining (c : State T) : ℕ := (c.calls.map Call.remaining).sum + 2 * c.consumers.length

/-- How many handlers have been invoked by cancelers. -/
def aborted (c : State T) : ℕ := c.invoked.countP fun x => x.argument.received.isNone

end State

variable [DecidableEq T] {c c' : State T} {x : Call T}

/-! ### The calls in flight come to an end -/

omit [DecidableEq T] in
theorem remaining_def (c : State T) :
    c.remaining = (c.calls.map Call.remaining).sum + 2 * c.consumers.length := rfl

/-- A call is replaced by what it has left, which is less together with the consumer it may have
put into the queue. -/
theorem remaining_replace {ys : List (Call T)} (hx : x ∈ c.calls)
    (hcalls : c'.calls = Pool.replace c.calls x ys)
    (hlt : (ys.map Call.remaining).sum + 2 * c'.consumers.length <
      x.remaining + 2 * c.consumers.length) : c'.remaining < c.remaining := by
  have hsum := Pool.sum_replace Call.remaining ys hx
  rw [remaining_def, remaining_def, hcalls]
  omega

theorem remaining_lt_of_step (h : Step c c') : c'.remaining < c.remaining := by
  cases h with
  | store op hx hnil => exact remaining_replace hx rfl (by simp [Call.remaining])
  | take_consumer op consumer consumers hx hcons =>
      refine remaining_replace hx rfl ?_
      rw [hcons, List.length_cons]
      simp only [Call.remaining, List.map_cons, List.map_nil, List.sum_cons, List.sum_nil]
      omega
  | claim op consumer hx hactive => exact remaining_replace hx rfl (by simp [Call.remaining])
  | miss op consumer hx hactive => exact remaining_replace hx rfl (by simp [Call.remaining])
  | consume op consumer handler hx hf => exact remaining_replace hx rfl (by simp [Call.remaining])
  | take_item handler item inventory hx hcons =>
      exact remaining_replace hx rfl (by simp [Call.remaining])
  | wait handler hx hnil =>
      refine remaining_replace hx rfl ?_
      rw [List.length_append, List.length_singleton]
      simp only [Call.remaining, List.map_cons, List.map_nil, List.sum_cons, List.sum_nil]
      omega
  | deliver handler item hx => exact remaining_replace hx rfl (by simp [Call.remaining])
  | claim_abort id consumer hx hactive =>
      exact remaining_replace hx rfl (by simp [Call.remaining])
  | miss_abort id consumer hx hactive =>
      exact remaining_replace hx rfl (by simp [Call.remaining])
  | abort id consumer handler hx hf =>
      exact remaining_replace hx rfl (by simp [Call.remaining])
  | finish result hx => exact remaining_replace hx rfl (by simp [Call.remaining])

theorem remaining_lt (h : step c (.advance x) = some c') : c'.remaining < c.remaining := by
  rw [step] at h
  split at h
  · rename_i hx
    exact remaining_lt_of_step (advance_cases hx h)
  · cases h

/-- A schedule of the calls in flight takes no more steps than are left. -/
theorem schedule_length_le {xs : List (Call T)}
    (h : Run.run step c (xs.map .advance) = some c') : xs.length + c'.remaining ≤ c.remaining := by
  induction xs generalizing c with
  | nil =>
      obtain rfl : c = c' := by simpa using h
      simp
  | cons x xs ih =>
      obtain ⟨m, hm, h⟩ := Option.bind_eq_some_iff.1 h
      have hlt := remaining_lt hm
      have hle := ih h
      rw [List.length_cons]
      omega

theorem exists_schedule (n : ℕ) (hn : c.remaining ≤ n) (hc : Run.Reachable step State.init c) :
    ∃ (xs : List (Call T)) (c' : State T),
      Run.run step c (xs.map .advance) = some c' ∧ c'.calls = [] := by
  induction n generalizing c with
  | zero =>
      refine ⟨[], c, rfl, ?_⟩
      cases hcalls : c.calls with
      | nil => rfl
      | cons x calls =>
          -- whatever call is left has a step to take
          exfalso
          have hx : x ∈ c.calls := by
            rw [hcalls]
            exact List.mem_cons_self
          obtain ⟨m, hm⟩ := Option.isSome_iff_exists.1 (advance_isSome (accounted hc) hx)
          have hlt := remaining_lt hm
          omega
  | succ n ih =>
      cases hcalls : c.calls with
      | nil => exact ⟨[], c, rfl, hcalls⟩
      | cons x calls =>
          have hx : x ∈ c.calls := by
            rw [hcalls]
            exact List.mem_cons_self
          obtain ⟨m, hm⟩ := Option.isSome_iff_exists.1 (advance_isSome (accounted hc) hx)
          have hlt := remaining_lt hm
          obtain ⟨xs, c', hrun, hnil⟩ := ih (by omega) (hc.tail hm)
          exact ⟨x :: xs, c', (Run.run_cons_of_step hm).trans hrun, hnil⟩

/-! ### What a queue at rest has matched -/

/-- A consumer that can be called is in the queue, or in the hands of a push. -/
def Known (c : State T) : Prop :=
  ∀ h, c.active h = true → h ∈ c.consumers ∨ ∃ op, .dispatch op h ∈ c.calls

theorem step_isKnown (c : State T) (a : Act T) (c' : State T) (hc : Known c)
    (h : step c a = some c') : Known c' := by
  have hbegin : ∀ (y : Call T) h, c.active h = true →
      h ∈ c.consumers ∨ ∃ op, .dispatch op h ∈ c.calls ++ [y] := by
    intro y h hh
    refine (hc h hh).imp_right ?_
    rintro ⟨op, hop⟩
    exact ⟨op, List.mem_append_left _ hop⟩
  cases a with
  | push value =>
      cases h
      exact hbegin _
  | emplace value =>
      cases h
      exact hbegin _
  | asyncPop =>
      cases h
      exact hbegin _
  | callCanceler consumer =>
      rw [step] at h
      split at h
      · cases h
        exact hbegin _
      · cases h
  | advance x =>
      rw [step] at h
      split at h
      · rename_i hx
        exact step_known hc (advance_cases hx h)
      · cases h

omit [DecidableEq T] in
/-- Every handler has been invoked with an item or by a canceler. -/
theorem length_invoked (l : List (Invocation T)) :
    (l.filterMap fun x => x.argument.received).length +
      l.countP (fun x => x.argument.received.isNone) = l.length := by
  induction l with
  | nil => rfl
  | cons x l ih =>
      cases hx : x.argument.received with
      | none =>
          simp only [List.filterMap_cons, List.countP_cons, hx, List.length_cons]
          simp only [Option.isNone_none, if_true]
          omega
      | some i =>
          simp only [List.filterMap_cons, List.countP_cons, hx, List.length_cons]
          simp only [Option.isNone_some, Bool.false_eq_true, if_false]
          omega

/-- At rest, an item that has been pushed is in the inventory or has been received. -/
theorem length_pushed (hc : Matched c) (hrest : c.calls = []) :
    c.pushed.length = c.inventory.length + c.received.length := by
  have hperm : (c.inventory ++ c.received).Perm c.pushed := by
    rw [List.perm_iff_count]
    intro i
    have hitem := hc.items i
    rw [hrest, List.flatMap_nil, List.count_nil] at hitem
    rw [List.count_append]
    omega
  rw [← hperm.length_eq, List.length_append]

theorem invoked_le_pops (hc : Matched c) : c.invoked.length ≤ c.pops := by
  have hsub : c.invoked.map Invocation.handler ⊆ List.range c.pops := by
    intro h hh
    have hone := hc.handlers h
    have hpos := List.count_pos_iff.2 hh
    rw [List.mem_range]
    by_contra hlt
    rw [if_neg hlt] at hone
    omega
  have hle := (List.subperm_of_subset hc.nodup_invoked hsub).length_le
  rwa [List.length_map, List.length_range] at hle

/-- At rest, and where no consumer can be called, every handler has been invoked. -/
theorem invoked_eq_pops (hc : Matched c) (hrest : c.calls = [])
    (hinactive : ∀ h, c.active h = false) : c.invoked.length = c.pops := by
  have hperm : (c.invoked.map Invocation.handler).Perm (List.range c.pops) := by
    rw [List.perm_iff_count]
    intro h
    have hone := hc.handlers h
    rw [hrest, hinactive h, List.flatMap_nil, List.count_nil, Bool.toNat_false] at hone
    rw [List.count_range]
    omega
  rw [← List.length_map, hperm.length_eq, List.length_range]

end Hittop.AsyncQueue

namespace Hittop

open AsyncQueue

/-- **The queue comes to rest.**  From every state that it can come to, each schedule of the calls
in flight is bounded and goes on until there are none, and there is one that ends so. -/
theorem queue_quiesces {T : Type} [DecidableEq T] (c : AsyncQueue.State T)
    (h : Run.Reachable AsyncQueue.step .init c) :
    (∀ (xs : List (AsyncQueue.Call T)) (c' : AsyncQueue.State T),
      Run.run AsyncQueue.step c (xs.map .advance) = some c' →
        xs.length ≤ c.remaining ∧
          ∀ x ∈ c'.calls, (AsyncQueue.step c' (.advance x)).isSome = true) ∧
      ∃ (xs : List (AsyncQueue.Call T)) (c' : AsyncQueue.State T),
        Run.run AsyncQueue.step c (xs.map .advance) = some c' ∧ c'.calls = [] := by
  refine ⟨fun xs c' hrun => ⟨?_, fun x hx => ?_⟩, exists_schedule _ le_rfl h⟩
  · have hle := schedule_length_le hrun
    omega
  · exact advance_isSome (accounted (h.trans ⟨_, hrun⟩)) hx

/-- A push that has taken the consumer of a pop, while the canceler is called. -/
theorem queue_quiesces_canceled :
    ∃ c c' : AsyncQueue.State ℕ, Run.run AsyncQueue.step .init
      [.asyncPop, .advance (.pop 0), .advance (.finished (.canceler (some 0))), .push 5,
        .advance (.insert (.push ⟨0, 5⟩ none)), .callCanceler 0] = some c ∧
      Run.Reachable AsyncQueue.step c c' ∧ c'.calls = [] := by
  obtain ⟨c, h⟩ : ∃ c : AsyncQueue.State ℕ, Run.run AsyncQueue.step .init
      [.asyncPop, .advance (.pop 0), .advance (.finished (.canceler (some 0))), .push 5,
        .advance (.insert (.push ⟨0, 5⟩ none)), .callCanceler 0] = some c := ⟨_, rfl⟩
  obtain ⟨xs, c', hrun, hrest⟩ := (queue_quiesces c ⟨_, h⟩).2
  exact ⟨c, c', h, ⟨_, hrun⟩, hrest⟩

/-- **At rest, as much has been matched as could be**: as many handlers have received an item as
items have been pushed, or as handlers have not been called by a canceler, whichever is less. -/
theorem queue_matches_most {T : Type} [DecidableEq T] (c : AsyncQueue.State T)
    (h : Run.Reachable AsyncQueue.step .init c) (hrest : c.calls = []) :
    c.received.length = min c.pushed.length (c.pops - c.aborted) := by
  have hc := (accounted h).matched
  have hknown : AsyncQueue.Known c :=
    h.invariant AsyncQueue.step_isKnown (fun _ hh => absurd hh (by simp [AsyncQueue.State.init]))
  have hpushed := length_pushed hc hrest
  have hinvoked : c.received.length + c.aborted = c.invoked.length := length_invoked c.invoked
  have hle := invoked_le_pops hc
  rcases hc.empty with hnil | hnil
  · rw [hnil, List.length_nil] at hpushed
    omega
  · have hinactive : ∀ k, c.active k = false := by
      intro k
      by_contra hk
      obtain hmem | ⟨op, hop⟩ := hknown k (by simpa using hk)
      · rw [hnil] at hmem
        cases hmem
      · rw [hrest] at hop
        cases hop
    have hall := invoked_eq_pops hc hrest hinactive
    omega

/-- Two pops, one of which is cancelled, and two pushes. -/
theorem queue_matches_most_canceled :
    ∃ c : AsyncQueue.State ℕ, Run.run AsyncQueue.step .init
      [.asyncPop, .advance (.pop 0), .advance (.finished (.canceler (some 0))), .asyncPop,
        .advance (.pop 1), .advance (.finished (.canceler (some 1))), .callCanceler 0,
        .advance (.cancel 0 0), .advance (.abort 0 0),
        .advance (.finished (.canceled 0 0 true)), .emplace 5,
        .advance (.insert (.emplace ⟨0, 5⟩)), .advance (.dispatch (.emplace ⟨0, 5⟩) 0),
        .advance (.insert (.emplace ⟨0, 5⟩)), .advance (.dispatch (.emplace ⟨0, 5⟩) 1),
        .advance (.consume (.emplace ⟨0, 5⟩) 1), .advance (.finished .inserted), .emplace 6,
        .advance (.insert (.emplace ⟨1, 6⟩)), .advance (.finished .inserted)] = some c ∧
      c.received.length = min 2 (2 - 1) := by
  obtain ⟨c, h, hrest, hpushed, hpops, haborted⟩ : ∃ c : AsyncQueue.State ℕ,
      Run.run AsyncQueue.step .init
        [.asyncPop, .advance (.pop 0), .advance (.finished (.canceler (some 0))), .asyncPop,
          .advance (.pop 1), .advance (.finished (.canceler (some 1))), .callCanceler 0,
          .advance (.cancel 0 0), .advance (.abort 0 0),
          .advance (.finished (.canceled 0 0 true)), .emplace 5,
          .advance (.insert (.emplace ⟨0, 5⟩)), .advance (.dispatch (.emplace ⟨0, 5⟩) 0),
          .advance (.insert (.emplace ⟨0, 5⟩)), .advance (.dispatch (.emplace ⟨0, 5⟩) 1),
          .advance (.consume (.emplace ⟨0, 5⟩) 1), .advance (.finished .inserted), .emplace 6,
          .advance (.insert (.emplace ⟨1, 6⟩)), .advance (.finished .inserted)] = some c ∧
        c.calls = [] ∧ c.pushed.length = 2 ∧ c.pops = 2 ∧ c.aborted = 1 :=
    ⟨_, rfl, rfl, rfl, rfl, rfl⟩
  refine ⟨c, h, ?_⟩
  have hmost := queue_matches_most c ⟨_, h⟩ hrest
  rwa [hpushed, hpops, haborted] at hmost

end Hittop
