/-
**Parses that treat every state alike.**

A parse may change the state, but what it does is often settled by the input: from whatever state it
starts, it ends in the same fault or with the same verdict, and it applies the same function to the
state.  Which functions these may be is a set that is closed under composition for a sequence, and
any set for a visitor that hands over a part of the state at its end.

Main definitions:

* `Hittop.Acts` — what a parse does is settled by the input, and is of a certain kind;
* `Hittop.within` — the same kind of change for every verdict.

Main results:

* `Hittop.Acts.seq`, `Hittop.Acts.alt`, `Hittop.Acts.loop` — the combinators;
* `Hittop.Acts.locally` — visitors.
-/

import Hittop.Persistence
import Mathlib.Algebra.Group.End
import Mathlib.Algebra.Group.Submonoid.Defs

set_option relaxedAutoImplicit false
set_option autoImplicit false

namespace Hittop

open Exec Meaning

variable {κ σ : Type}

/-- From every state the parse ends in the same fault, or with the same verdict and the same change
of the state. -/
def Acts (G : Verdict → Function.End σ → Prop) (m : Meaning κ σ) : Prop :=
  ∀ s, (∃ e, ∀ st, m s st = .error e) ∨ ∃ v g, G v g ∧ ∀ st, m s st = .ok (v, g st)

/-- The change is one of `S`, whatever the verdict. -/
def within (S : Submonoid (Function.End σ)) (_ : Verdict) (g : Function.End σ) : Prop := g ∈ S

namespace Acts

variable {G G' : Verdict → Function.End σ → Prop} {S : Submonoid (Function.End σ)}
  {m m' : Meaning κ σ} {f : Recognizer κ}

theorem mono (h : Acts G m) (hG : ∀ v g, G v g → G' v g) : Acts G' m := by
  intro s
  rcases h s with herror | ⟨v, g, hg, hrun⟩
  · exact .inl herror
  · exact .inr ⟨v, g, hG v g hg, hrun⟩

theorem lift (hG : ∀ v, G v 1) : Acts G (Meaning.lift f) :=
  fun s => .inr ⟨f s, 1, hG _, fun _ => rfl⟩

theorem lift_within : Acts (within S) (Meaning.lift f) := lift fun _ => S.one_mem

theorem seq (h : Acts (within S) m) (h' : Acts (within S) m') : Acts (within S) (m.seq m') := by
  intro s
  rcases h s with ⟨e, herror⟩ | ⟨v, g, hg, hrun⟩
  · exact .inl ⟨e, fun st => seq_of_error (herror st)⟩
  · cases v with
    | incomplete => exact .inr ⟨.incomplete, g, hg, fun st => seq_of_incomplete (hrun st)⟩
    | reject => exact .inr ⟨.reject, g, hg, fun st => seq_of_reject (hrun st)⟩
    | accept n =>
        rcases h' (s.drop n) with ⟨e, herror'⟩ | ⟨v', g', hg', hrun'⟩
        · refine .inl ⟨e, fun st => ?_⟩
          rw [seq_of_accept (hrun st), bind_of_error (herror' _)]
        · exact .inr ⟨v'.advance n, g' * g, S.mul_mem hg' hg, fun st => seq_ok (hrun st) (hrun' _)⟩

/-- A part in front that changes nothing. -/
theorem lift_seq (hone : ∀ v, (∀ n, v ≠ .accept n) → G v 1)
    (hadvance : ∀ v g n, G v g → G (v.advance n) g) (h : Acts G m) :
    Acts G ((Meaning.lift f).seq m) := by
  intro s
  cases hf : f s with
  | incomplete =>
      refine .inr ⟨.incomplete, 1, hone _ fun n => by simp, fun st => seq_of_incomplete ?_⟩
      rw [lift_apply, hf]
      rfl
  | reject =>
      refine .inr ⟨.reject, 1, hone _ fun n => by simp, fun st => seq_of_reject ?_⟩
      rw [lift_apply, hf]
      rfl
  | accept n =>
      have hlift (st : σ) : Meaning.lift f s st = .ok (.accept n, st) := by rw [lift_apply, hf]
      rcases h (s.drop n) with ⟨e, herror⟩ | ⟨v, g, hg, hrun⟩
      · refine .inl ⟨e, fun st => ?_⟩
        rw [seq_of_accept (hlift st), bind_of_error (herror _)]
      · exact .inr ⟨v.advance n, g, hadvance v g n hg, fun st => seq_ok (hlift st) (hrun st)⟩

/-- A part behind that changes nothing. -/
theorem seq_lift (haccept : ∀ n v g, G (.accept n) g → G v g) (h : Acts G m) :
    Acts G (m.seq (Meaning.lift f)) := by
  intro s
  rcases h s with ⟨e, herror⟩ | ⟨v, g, hg, hrun⟩
  · exact .inl ⟨e, fun st => seq_of_error (herror st)⟩
  · cases v with
    | incomplete => exact .inr ⟨.incomplete, g, hg, fun st => seq_of_incomplete (hrun st)⟩
    | reject => exact .inr ⟨.reject, g, hg, fun st => seq_of_reject (hrun st)⟩
    | accept n =>
        exact .inr ⟨(f (s.drop n)).advance n, g, haccept n _ g hg, fun st => seq_ok (hrun st) rfl⟩

theorem alt (hmul : ∀ v g g', G .reject g → G v g' → G v (g' * g)) (h : Acts G m) (h' : Acts G m') :
    Acts G (m.alt m') := by
  intro s
  rcases h s with ⟨e, herror⟩ | ⟨v, g, hg, hrun⟩
  · exact .inl ⟨e, fun st => alt_of_error (herror st)⟩
  · cases v with
    | accept n => exact .inr ⟨.accept n, g, hg, fun st => alt_of_accept (hrun st)⟩
    | incomplete => exact .inr ⟨.incomplete, g, hg, fun st => alt_of_incomplete (hrun st)⟩
    | reject =>
        rcases h' s with ⟨e, herror'⟩ | ⟨v', g', hg', hrun'⟩
        · exact .inl ⟨e, fun st => (alt_of_reject (hrun st)).trans (herror' _)⟩
        · exact .inr ⟨v', g' * g, hmul v' g g' hg hg',
            fun st => (alt_of_reject (hrun st)).trans (hrun' _)⟩

theorem opt (h : Acts (within S) m) : Acts (within S) m.opt :=
  alt (fun _ _ _ hg hg' => S.mul_mem hg' hg) h .lift_within

/-- The changes of the iterations are composed. -/
theorem loop (h : Acts (within S) m) (hm : m.Bounded) : Acts (within S) m.loop := by
  intro s
  induction hN : s.length using Nat.strongRecOn generalizing s with
  | ind N ih =>
      rw [Meaning.loop_eq hm]
      rcases h s with ⟨e, herror⟩ | ⟨v, g, hg, hrun⟩
      · exact .inl ⟨e, fun st => by rw [turn, bind_of_error (herror st)]⟩
      · cases v with
        | incomplete =>
            refine .inr ⟨.incomplete, g, hg, fun st => ?_⟩
            rw [turn, bind_of_ok (hrun st)]
            rfl
        | reject => exact .inr ⟨.accept 0, g, hg, fun st => turn_of_reject (hrun st)⟩
        | accept n =>
            cases n with
            | zero =>
                refine .inr ⟨.accept 0, g, hg, fun st => ?_⟩
                rw [turn, bind_of_ok (hrun st)]
                rfl
            | succ n =>
                by_cases hs : Nonempty σ
                · obtain ⟨st₀⟩ := hs
                  have hle := hm s st₀ _ _ (hrun st₀)
                  have hlength : (s.drop (n + 1)).length < N := by
                    rw [List.length_drop]
                    omega
                  rcases ih _ hlength _ rfl with ⟨e, herror'⟩ | ⟨v', g', hg', hrun'⟩
                  · refine .inl ⟨e, fun st => ?_⟩
                    rw [turn_of_accept (hrun st) (Nat.succ_pos n), bind_of_error (herror' _)]
                  · refine .inr ⟨v'.advance (n + 1), g' * g, S.mul_mem hg' hg, fun st => ?_⟩
                    rw [turn_of_accept (hrun st) (Nat.succ_pos n), bind_of_ok (hrun' _)]
                    rfl
                · exact .inl ⟨.undefined, fun st => absurd ⟨st⟩ hs⟩

/-- A visitor: what it makes of a text is settled by the text, and the change of the state is known
from what it starts with and what it does at the end. -/
theorem locally {before : σ → σ} {accepted : σ → List κ → σ → Except Fault σ} {failed : σ → σ → σ}
    (h : Acts G m)
    (hreject : ∀ v g, (∀ n, v ≠ .accept n) → G v g → G' v fun st => failed st (g (before st)))
    (haccept : ∀ n g text, G (.accept n) g →
      (∃ e, ∀ st, accepted st text (g (before st)) = .error e) ∨
        ∃ k, G' (.accept n) k ∧ ∀ st, accepted st text (g (before st)) = .ok (k st)) :
    Acts G' (m.locally before accepted failed) := by
  intro s
  rcases h s with ⟨e, herror⟩ | ⟨v, g, hg, hrun⟩
  · refine .inl ⟨e, fun st => ?_⟩
    rw [Meaning.locally, Meaning.finish, bind_of_error (herror _)]
  · cases v with
    | incomplete =>
        refine .inr ⟨.incomplete, _, hreject _ g (fun n => by simp) hg, fun st => ?_⟩
        rw [Meaning.locally, Meaning.finish, bind_of_ok (hrun _)]
    | reject =>
        refine .inr ⟨.reject, _, hreject _ g (fun n => by simp) hg, fun st => ?_⟩
        rw [Meaning.locally, Meaning.finish, bind_of_ok (hrun _)]
    | accept n =>
        rcases haccept n g (s.take n) hg with ⟨e, herror⟩ | ⟨k, hk, hst⟩
        · refine .inl ⟨e, fun st => ?_⟩
          rw [Meaning.locally, Meaning.finish, bind_of_ok (hrun _)]
          simp only [herror]
          rfl
        · refine .inr ⟨.accept n, k, hk, fun st => ?_⟩
          rw [Meaning.locally, Meaning.finish, bind_of_ok (hrun _)]
          simp only [hst]
          rfl

/-- A parse that acts does on every state what it does on one. -/
theorem of_run (h : Acts G m) {s : List κ} {v : Verdict} {st₀ st₁ : σ}
    (hrun : m s st₀ = .ok (v, st₁)) : ∃ g, G v g ∧ g st₀ = st₁ ∧ ∀ st, m s st = .ok (v, g st) := by
  rcases h s with ⟨e, herror⟩ | ⟨v', g, hg, hall⟩
  · rw [herror] at hrun
    cases hrun
  · rw [hall] at hrun
    cases hrun
    exact ⟨g, hg, rfl, hall⟩

end Acts

end Hittop
