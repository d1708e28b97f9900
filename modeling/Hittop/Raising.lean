/-
**Which inputs make a parse end in a fault.**

A fault is raised by what a visitor does with a text.  Where that depends on the text alone, so does
the fault: it is raised on an input exactly where the parse comes to such a text, from whatever
state it starts.  What the parse comes to is settled by the verdicts of its parts.

Main definitions:

* `Hittop.Raises` — the inputs on which a parse ends in a fault;
* `Hittop.Turns` — the positions that a loop starts an iteration from.

Main results:

* `Hittop.Raises.seq`, `Hittop.Raises.alt`, `Hittop.Raises.loop` — the combinators;
* `Hittop.Raises.locally` — visitors.
-/

import Hittop.Persistence

set_option relaxedAutoImplicit false
set_option autoImplicit false

namespace Hittop

open Exec Meaning

variable {κ σ : Type}

/-- From every state the parse ends in a fault on the inputs `X`, and on no others. -/
def Raises (m : Meaning κ σ) (X : List κ → Prop) : Prop :=
  ∀ s st, (∃ e, m s st = .error e) ↔ X s

/-- Where iterations of `f` begin. -/
inductive Turns (f : Recognizer κ) : List κ → List κ → Prop
  | start (s : List κ) : Turns f s s
  | next {s t : List κ} {n : ℕ} (accept : f s = .accept n) (pos : 0 < n)
    (rest : Turns f (s.drop n) t) :
      Turns f s t

theorem ok_not_error {α β : Type} {a : α} : ¬ ∃ e : β, Except.ok a = Except.error e := by
  rintro ⟨e, he⟩
  cases he

/-- What only works on a result raises nothing. -/
theorem exists_error_map_iff {α β : Type} {x : Exec σ α} {g : α → β} {st : σ} :
    (∃ e, (x >>= fun a => pure (g a)) st = .error e) ↔ ∃ e, x st = .error e := by
  cases hx : x st with
  | error e =>
      rw [bind_of_error hx]
      exact iff_of_true ⟨e, rfl⟩ ⟨e, rfl⟩
  | ok q =>
      rw [bind_of_ok hx]
      exact iff_of_false ok_not_error ok_not_error

namespace Raises

variable {m m' : Meaning κ σ} {f f' : Recognizer κ} {X Y : List κ → Prop}

theorem congr (h : Raises m X) (hXY : ∀ s, X s ↔ Y s) : Raises m Y :=
  fun s st => (h s st).trans (hXY s)

/-- There is one set of such inputs. -/
theorem unique [Nonempty σ] (h : Raises m X) (h' : Raises m Y) (s : List κ) : X s ↔ Y s := by
  obtain ⟨st⟩ := ‹Nonempty σ›
  exact (h s st).symm.trans (h' s st)

theorem lift : Raises (Meaning.lift f : Meaning κ σ) fun _ => False := by
  intro s st
  exact iff_of_false ok_not_error id

/-- Where the first part raises nothing, it has its verdict. -/
theorem ok_of_not (h : Raises m X) (hm : Judges m f) {s : List κ} (hs : ¬ X s) (st : σ) :
    ∃ st', m s st = .ok (f s, st') := by
  rcases hm.run_cases s st with ⟨e, hrun⟩ | hok
  · exact absurd ((h s st).1 ⟨e, hrun⟩) hs
  · exact hok

theorem seq (h : Raises m X) (hm : Judges m f) (h' : Raises m' Y) :
    Raises (m.seq m') fun s => X s ∨ ∃ n, f s = .accept n ∧ Y (s.drop n) := by
  intro s st
  beta_reduce
  by_cases hs : X s
  · obtain ⟨e, hrun⟩ := (h s st).2 hs
    exact ⟨fun _ => .inl hs, fun _ => ⟨e, seq_of_error hrun⟩⟩
  · obtain ⟨st', hrun⟩ := h.ok_of_not hm hs st
    cases hf : f s with
    | accept n =>
        rw [hf] at hrun
        rw [seq_of_accept hrun, exists_error_map_iff, h' (s.drop n) st']
        constructor
        · exact fun hY => .inr ⟨n, rfl, hY⟩
        · rintro (hX | ⟨k, hk, hY⟩)
          · exact absurd hX hs
          · cases hk
            exact hY
    | incomplete =>
        rw [hf] at hrun
        rw [seq_of_incomplete hrun]
        exact iff_of_false ok_not_error (by simp [hs])
    | reject =>
        rw [hf] at hrun
        rw [seq_of_reject hrun]
        exact iff_of_false ok_not_error (by simp [hs])

theorem alt (h : Raises m X) (hm : Judges m f) (h' : Raises m' Y) :
    Raises (m.alt m') fun s => X s ∨ f s = .reject ∧ Y s := by
  intro s st
  beta_reduce
  by_cases hs : X s
  · obtain ⟨e, hrun⟩ := (h s st).2 hs
    exact ⟨fun _ => .inl hs, fun _ => ⟨e, alt_of_error hrun⟩⟩
  · obtain ⟨st', hrun⟩ := h.ok_of_not hm hs st
    cases hf : f s with
    | accept n =>
        rw [hf] at hrun
        rw [alt_of_accept hrun]
        exact iff_of_false ok_not_error (by simp [hs])
    | incomplete =>
        rw [hf] at hrun
        rw [alt_of_incomplete hrun]
        exact iff_of_false ok_not_error (by simp [hs])
    | reject =>
        rw [hf] at hrun
        rw [alt_of_reject hrun, h' s st']
        exact ⟨fun hY => .inr ⟨rfl, hY⟩, fun h => h.elim (absurd · hs) And.right⟩

/-- A loop ends in a fault where one of its iterations does. -/
theorem loop (h : Raises m X) (hm : Judges m f) :
    Raises m.loop fun s => ∃ t, Turns f s t ∧ X t := by
  intro s
  induction hN : s.length using Nat.strongRecOn generalizing s with
  | ind N ih =>
      intro st
      beta_reduce
      rw [Meaning.loop_eq hm.bounded]
      by_cases hs : X s
      · obtain ⟨e, hrun⟩ := (h s st).2 hs
        refine ⟨fun _ => ⟨s, .start s, hs⟩, fun _ => ⟨e, ?_⟩⟩
        rw [turn, bind_of_error hrun]
      · obtain ⟨st', hrun⟩ := h.ok_of_not hm hs st
        -- the first iteration is not the one, so it is one of those behind it
        have hlater : (∃ t, Turns f s t ∧ X t) ↔
            ∃ n, f s = .accept n ∧ 0 < n ∧ ∃ t, Turns f (s.drop n) t ∧ X t := by
          constructor
          · rintro ⟨t, ht, hX⟩
            cases ht with
            | start => exact absurd hX hs
            | next haccept hpos hrest => exact ⟨_, haccept, hpos, t, hrest, hX⟩
          · rintro ⟨n, haccept, hpos, t, ht, hX⟩
            exact ⟨t, .next haccept hpos ht, hX⟩
        rw [hlater]
        cases hf : f s with
        | incomplete =>
            rw [hf] at hrun
            rw [turn, bind_of_ok hrun]
            exact iff_of_false ok_not_error (by simp)
        | reject =>
            rw [hf] at hrun
            rw [turn_of_reject hrun]
            exact iff_of_false ok_not_error (by simp)
        | accept n =>
            rw [hf] at hrun
            cases n with
            | zero =>
                rw [turn, bind_of_ok hrun]
                refine iff_of_false ok_not_error ?_
                rintro ⟨n, hn, hpos, -⟩
                cases hn
                exact absurd hpos (Nat.lt_irrefl 0)
            | succ n =>
                have hle := hm.bounded s st _ st' hrun
                have hlt : (s.drop (n + 1)).length < N := by
                  rw [List.length_drop]
                  omega
                rw [turn_of_accept hrun (Nat.succ_pos n), exists_error_map_iff,
                  ih _ hlt _ rfl st']
                constructor
                · exact fun hX => ⟨n + 1, rfl, Nat.succ_pos n, hX⟩
                · rintro ⟨k, hk, -, hX⟩
                  cases hk
                  exact hX

theorem opt (h : Raises m X) (hm : Judges m f) : Raises m.opt X := by
  refine (h.alt hm lift).congr fun s => ?_
  simp

/-- A visitor, where it depends on the text alone whether it raises a fault. -/
theorem locally {before : σ → σ} {accepted : σ → List κ → σ → Except Fault σ} {failed : σ → σ → σ}
    {E : List κ → Prop} (h : Raises m X) (hm : Judges m f)
    (hE : ∀ st text st', (∃ e, accepted st text st' = .error e) ↔ E text) :
    Raises (m.locally before accepted failed)
      fun s => X s ∨ ∃ n, f s = .accept n ∧ E (s.take n) := by
  intro s st
  beta_reduce
  by_cases hs : X s
  · obtain ⟨e, hrun⟩ := (h s (before st)).2 hs
    refine ⟨fun _ => .inl hs, fun _ => ⟨e, ?_⟩⟩
    rw [Meaning.locally, Meaning.finish, bind_of_error hrun]
  · obtain ⟨st', hrun⟩ := h.ok_of_not hm hs (before st)
    cases hf : f s with
    | incomplete =>
        rw [hf] at hrun
        rw [Meaning.locally, Meaning.finish, bind_of_ok hrun]
        exact iff_of_false ok_not_error (by simp [hs])
    | reject =>
        rw [hf] at hrun
        rw [Meaning.locally, Meaning.finish, bind_of_ok hrun]
        exact iff_of_false ok_not_error (by simp [hs])
    | accept n =>
        rw [hf] at hrun
        have htext := hE st (s.take n) st'
        rw [Meaning.locally, Meaning.finish, bind_of_ok hrun]
        constructor
        · rintro ⟨e, he⟩
          refine .inr ⟨n, rfl, htext.1 ?_⟩
          cases ha : accepted st (s.take n) st' with
          | error e' => exact ⟨e', rfl⟩
          | ok st'' =>
              simp only [ha] at he
              cases he
        · rintro (hX | ⟨k, hk, hfault⟩)
          · exact absurd hX hs
          · cases hk
            obtain ⟨e, he⟩ := htext.2 hfault
            refine ⟨e, ?_⟩
            simp only [he]
            rfl

/-- A visitor that raises no fault. -/
theorem locally_pure {before : σ → σ} {accepted : σ → List κ → σ → σ} {failed : σ → σ → σ}
    (h : Raises m X) (hm : Judges m f) :
    Raises (m.locally before (fun st text st' => .ok (accepted st text st')) failed) X := by
  refine (h.locally hm (E := fun _ => False) fun st text st' => ?_).congr fun s => ?_
  · exact iff_of_false ok_not_error id
  · simp

end Raises

end Hittop
