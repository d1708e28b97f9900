/-
**The lifetime of a callback target.**

The count of a target is the number of pointers to it, in callbacks, in calls of them and in tasks.
A call of a one-shot callback keeps a pointer of its own, so that the strand is there until
`schedule` has returned, even if the task has run inside of it and the callback is gone.  A call of
a listener has none once it has handed over its task: if the task runs inside of the call and
destroys the listener, the target may be gone before the call returns.

Main definitions:

* `Hittop.CallbackTarget.State.InUse` — something needs the target.

Main results:

* `Hittop.CallbackTarget.held_outcome` — every step counts what it copies and gives up;
* `Hittop.callback_target_lifetime` — the target is there as long as anything needs it, and is
  deleted once.
-/

import Mathlib.Algebra.Order.BigOperators.Group.List
import Mathlib.Algebra.Order.Group.Nat
import Hittop.Concurrent.CallbackTarget

set_option relaxedAutoImplicit false
set_option autoImplicit false

namespace Hittop

namespace CallbackTarget

variable {A R : Type} {N : RefCounter R} {c c' : State A R} {a : Act A} {b : Callback}
  {x : Call A} {t : Task A}

/-- The strand has a task, a member function is running, a call is about to hand over its task, or a
call of a one-shot callback has not returned. -/
def State.InUse (c : State A R) : Prop :=
  c.tasks ≠ [] ∨ c.running ≠ [] ∨ ∃ x ∈ c.calls, x.pc = .entered ∨ x.retention = .transferred

theorem holders_pos_of_reached (h : c.Reached) : 0 < c.holders := by
  rw [State.holders]
  rcases h with howners | hrunning
  · omega
  · have hpos := List.length_pos_iff.2 hrunning
    omega

theorem holders_pos_of_callback (hb : b ∈ c.callbacks) (hobj : b.obj = true) :
    0 < c.holders := by
  have hle : b.holds ≤ (c.callbacks.map Callback.holds).sum :=
    List.le_sum_of_mem (List.mem_map_of_mem hb)
  rw [Callback.holds, if_pos hobj] at hle
  rw [State.holders]
  omega

theorem holders_pos_of_tasks (ht : t ∈ c.tasks ∨ t ∈ c.running) : 0 < c.holders := by
  rw [State.holders]
  rcases ht with ht | ht
  · have hpos := List.length_pos_of_mem ht
    omega
  · have hpos := List.length_pos_of_mem ht
    omega

theorem Call.holds_pos (h : x.pc = .entered ∨ x.retention = .transferred) : 0 < x.holds := by
  obtain ⟨task, callback, retention, scheduler, pc⟩ := x
  cases pc with
  | entered => exact Nat.succ_pos _
  | scheduled =>
      obtain rfl : retention = .transferred := h.resolve_left (by simp)
      exact Nat.one_pos

/-- What needs the target holds a pointer to it. -/
theorem State.InUse.holders_pos (h : c.InUse) : 0 < c.holders := by
  rcases h with htasks | hrunning | ⟨x, hx, h⟩
  · obtain ⟨t, ht⟩ := List.exists_mem_of_ne_nil _ htasks
    exact holders_pos_of_tasks (.inl ht)
  · exact holders_pos_of_reached (.inr hrunning)
  · have hle : x.holds ≤ (c.calls.map Call.holds).sum :=
      List.le_sum_of_mem (List.mem_map_of_mem hx)
    have hpos := x.holds_pos h
    rw [State.holders]
    omega

variable [DecidableEq A]

/-- Every step counts the pointers that it copies and gives up. -/
theorem held_outcome (hN : N.Lawful) (hheld : N.Holds c.target c.holders)
    (h : Outcome N c a c') : N.Holds c'.target c'.holders := by
  cases h with
  | share hreached =>
      refine hheld.addRef hN (holders_pos_of_reached hreached) ?_
      simp only [State.holders]
      omega
  | drop howners =>
      refine hheld.release hN ?_
      simp only [State.holders]
      omega
  | make hreached =>
      refine hheld.addRef hN (holders_pos_of_reached hreached) ?_
      simp only [State.holders, make, List.map_append, List.map_cons, List.map_nil,
        List.sum_append, List.sum_singleton, Callback.holds, if_true]
      omega
  | copy b hb =>
      cases hobj : b.obj with
      | false =>
          refine hheld.of_eq ?_
          simp [State.holders, Callback.holds]
      | true =>
          refine hheld.addRef hN (holders_pos_of_callback hb hobj) ?_
          simp only [State.holders, List.map_append, List.map_cons, List.map_nil,
            List.sum_append, List.sum_singleton, Callback.holds, if_true]
          omega
  | move b hb =>
      -- the new callback has what the old one had
      have hsum := Pool.sum_replace Callback.holds [{ b with obj := false }] hb
      refine hheld.of_eq ?_
      simp only [State.holders, List.map_append, List.map_singleton, List.sum_append,
        List.sum_singleton, Callback.holds, Bool.false_eq_true, if_false] at hsum ⊢
      omega
  | destroy b hb =>
      have hsum := Pool.sum_replace Callback.holds [] hb
      rw [List.map_nil, List.sum_nil] at hsum
      cases hobj : b.obj with
      | false =>
          rw [Callback.holds, if_neg (by simp [hobj])] at hsum
          refine hheld.of_eq ?_
          simp only [State.holders]
          omega
      | true =>
          rw [Callback.holds, if_pos hobj] at hsum
          refine hheld.release hN ?_
          simp only [State.holders]
          omega
  | listen b hb hobj =>
      refine hheld.addRef hN (holders_pos_of_callback hb hobj) ?_
      simp only [State.holders, List.map_append, List.map_cons, List.map_nil, List.sum_append,
        List.sum_singleton, Call.holds, Call.local]
      omega
  | fire b hb hobj =>
      -- the pointer of the callback becomes `local_obj`, and another one is copied for the task
      have hsum := Pool.sum_replace Callback.holds [{ b with obj := false }] hb
      simp only [Callback.holds, hobj, if_true, List.map_cons, List.map_nil, List.sum_singleton,
        Bool.false_eq_true, if_false] at hsum
      refine hheld.addRef hN (holders_pos_of_callback hb hobj) ?_
      simp only [State.holders, List.map_append, List.map_cons, List.map_nil, List.sum_append,
        List.sum_singleton, Call.holds, Call.local] at hsum ⊢
      omega
  | abort => exact hheld
  | schedule x hx hpc =>
      have hsum := Pool.sum_replace Call.holds [{ x with pc := .scheduled }] hx
      rw [Call.holds_entered hpc, List.map_singleton, List.sum_singleton] at hsum
      refine hheld.of_eq ?_
      simp only [State.holders, schedule, List.length_append, List.length_singleton, Call.holds,
        Call.local] at hsum ⊢
      omega
  | leave x hx hpc =>
      have hsum := Pool.sum_replace Call.holds [] hx
      rw [Call.holds_scheduled hpc, List.map_nil, List.sum_nil, Call.local] at hsum
      cases hretention : x.retention with
      | retained =>
          simp only [hretention] at hsum
          simp only [leave, hretention]
          refine hheld.of_eq ?_
          simp only [State.holders]
          omega
      | transferred =>
          simp only [hretention] at hsum
          simp only [leave, hretention]
          refine hheld.release hN ?_
          simp only [State.holders]
          omega
  | copyTask t ht =>
      refine hheld.addRef hN (holders_pos_of_tasks ht) ?_
      simp only [State.holders, List.length_append, List.length_singleton]
      omega
  | destroyTask t ht =>
      have hpos := List.length_pos_of_mem ht
      refine hheld.release hN ?_
      simp only [State.holders, Pool.replace, List.append_nil, List.length_erase_of_mem ht]
      omega
  | start t ht =>
      have hpos := List.length_pos_of_mem ht
      refine hheld.of_eq ?_
      simp only [State.holders, Pool.replace, List.append_nil, List.length_erase_of_mem ht,
        List.length_append, List.length_singleton]
      omega
  | finish t ht =>
      have hpos := List.length_pos_of_mem ht
      refine hheld.of_eq ?_
      simp only [State.holders, Pool.replace, List.append_nil, List.length_erase_of_mem ht,
        List.length_append, List.length_singleton]
      omega

end CallbackTarget

/-- **The target is there as long as anything needs it**: whatever is done with callbacks, and
whatever the strand does with their tasks, the count of the target is the number of pointers that
are held; it has been deleted where there are none, once and only then; and it has not been deleted
where the strand has a task of it, where a member function is running, or where a call of a one-shot
callback is under way. -/
theorem callback_target_lifetime {A R : Type} [DecidableEq A] (N : RefCounter R) (hN : N.Lawful)
    (c : CallbackTarget.State A R) (h : Run.Reachable (CallbackTarget.step N) (.init N) c) :
    N.useCount c.target = c.holders ∧
      N.deletions c.target = (if c.holders = 0 then 1 else 0) ∧
      (c.InUse → N.deletions c.target = 0) := by
  have hheld : N.Holds c.target c.holders :=
    h.invariant (I := fun c : CallbackTarget.State A R => N.Holds c.target c.holders)
      (fun _ _ _ hc h => CallbackTarget.held_outcome hN hc (CallbackTarget.step_outcome h))
      hN.holds_one
  exact ⟨hheld.useCount, hheld.deletions, fun huse => hheld.alive huse.holders_pos⟩

/-- The last pointer is in a listener, whose task runs inside of the call and destroys it: the
target goes before the call returns. -/
theorem callback_target_lifetime_listener : ∃ c : CallbackTarget.State ℕ (ℕ × ℕ),
    Run.run (CallbackTarget.step .plain) (.init .plain) [.make .retained .dispatch 7, .drop,
      .invoke ⟨0, .retained, .dispatch, true, 7⟩ 5,
      .schedule ⟨⟨0, 7, 5⟩, 0, .retained, .dispatch, .entered⟩, .start ⟨0, 7, 5⟩,
      .destroy ⟨0, .retained, .dispatch, true, 7⟩, .finish ⟨0, 7, 5⟩,
      .destroyTask ⟨0, 7, 5⟩] = some c ∧
    c.calls = [⟨⟨0, 7, 5⟩, 0, .retained, .dispatch, .scheduled⟩] ∧ c.holders = 0 ∧
    RefCounter.plain.deletions c.target = if c.holders = 0 then 1 else 0 := by
  refine ⟨_, rfl, by decide, by decide, ?_⟩
  exact (callback_target_lifetime .plain RefCounter.plain_lawful _
    ⟨[.make .retained .dispatch 7, .drop, .invoke ⟨0, .retained, .dispatch, true, 7⟩ 5,
      .schedule ⟨⟨0, 7, 5⟩, 0, .retained, .dispatch, .entered⟩, .start ⟨0, 7, 5⟩,
      .destroy ⟨0, .retained, .dispatch, true, 7⟩, .finish ⟨0, 7, 5⟩,
      .destroyTask ⟨0, 7, 5⟩], rfl⟩).2.1

end Hittop
