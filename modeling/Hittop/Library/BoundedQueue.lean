/-
**Bounded queues.**

A first-in-first-out queue with a bound on its length: elements are put in at the end, several at a
time and only as many as there is room for, and taken out at the front, only as many as there are.

Main definitions:

* `BoundedQueue` — the elements, with the bound;
* `BoundedQueue.push`, `BoundedQueue.pop`, `BoundedQueue.step` — the two operations.

Main results:

* `BoundedQueue.run_items` — a queue holds what has been put in and not been taken out.
-/

import Hittop.Library.Run

set_option relaxedAutoImplicit false
set_option autoImplicit false

/-- At most `cap` elements, the oldest one first. -/
@[ext] structure BoundedQueue (β : Type) (cap : ℕ) where
  items : List β
  length_le : items.length ≤ cap

namespace BoundedQueue

variable {β : Type} {cap : ℕ}

inductive Op (β : Type)
  | push (vs : List β)
  | pop (n : ℕ)

def push (q : BoundedQueue β cap) (vs : List β) : Option (BoundedQueue β cap) :=
  if h : q.items.length + vs.length ≤ cap then
    some ⟨q.items ++ vs, by rw [List.length_append]; exact h⟩
  else none

def pop (q : BoundedQueue β cap) (n : ℕ) : Option (BoundedQueue β cap) :=
  if n ≤ q.items.length then
    some ⟨q.items.drop n, by rw [List.length_drop]; exact Nat.le_trans (Nat.sub_le _ _) q.length_le⟩
  else none

def step (q : BoundedQueue β cap) : Op β → Option (BoundedQueue β cap)
  | .push vs => q.push vs
  | .pop n => q.pop n

/-- All that is put in. -/
def pushed : List (Op β) → List β
  | [] => []
  | .push vs :: ops => vs ++ pushed ops
  | .pop _ :: ops => pushed ops

/-- How many elements are taken out. -/
def popped : List (Op β) → ℕ
  | [] => 0
  | .push _ :: ops => popped ops
  | .pop n :: ops => n + popped ops

variable {q q' : BoundedQueue β cap} {vs : List β} {n : ℕ} {ops : List (Op β)}

theorem push_eq_some : q.push vs = some q' ↔
    q.items.length + vs.length ≤ cap ∧ q'.items = q.items ++ vs := by
  unfold push
  split
  · rename_i h
    simp [h, BoundedQueue.ext_iff, eq_comm]
  · rename_i h
    simp [h]

theorem pop_eq_some : q.pop n = some q' ↔ n ≤ q.items.length ∧ q'.items = q.items.drop n := by
  unfold pop
  split
  · rename_i h
    simp [h, BoundedQueue.ext_iff, eq_comm]
  · rename_i h
    simp [h]

/-- First in, first out: the elements are those put in without those taken out. -/
theorem run_items (h : Run.run step q ops = some q') :
    popped ops ≤ (q.items ++ pushed ops).length ∧
      q'.items = (q.items ++ pushed ops).drop (popped ops) := by
  induction ops generalizing q with
  | nil =>
      obtain rfl : q = q' := by simpa using h
      simp [pushed, popped]
  | cons op ops ih =>
      obtain ⟨m, hm, h⟩ := Option.bind_eq_some_iff.1 h
      obtain ⟨hle, hitems⟩ := ih h
      cases op with
      | push vs =>
          obtain ⟨-, hpush⟩ := push_eq_some.1 hm
          rw [hpush, List.append_assoc] at hle hitems
          exact ⟨hle, hitems⟩
      | pop n =>
          obtain ⟨hn, hpop⟩ := pop_eq_some.1 hm
          have hdrop : q.items.drop n ++ pushed ops = (q.items ++ pushed ops).drop n := by
            rw [List.drop_append_of_le_length hn]
          rw [hpop, hdrop] at hle hitems
          rw [List.length_drop, List.length_append] at hle
          rw [List.drop_drop] at hitems
          refine ⟨?_, hitems⟩
          rw [List.length_append]
          simp only [pushed, popped]
          omega

end BoundedQueue
