/-
**Parses on an input and on its extensions.**

Where the verdict on an input is final, the visitors do on every extension of the input what they do
on the input itself.  This goes through the combinators under the conditions under which the verdict
does, and through a visitor as long as it makes the same of a text and of the text with more of the
characters behind it that the verdict may still take.

Main definitions:

* `Hittop.Judges` — the runs that end have the verdicts of a recognizer;
* `Hittop.Persists` — where the recognizer has answered, the runs on an extension change the state
  as those on the input do.

Main results:

* `Hittop.Persists.seq`, `Hittop.Persists.loop`, … — the combinators;
* `Hittop.Persists.locally` — visitors;
* `Hittop.meaning_callCopy_locally` — a second parse of an accepted text changes nothing.
-/

import Hittop.Effects
import Hittop.Library.Extension

set_option relaxedAutoImplicit false
set_option autoImplicit false

namespace Hittop

open Exec Meaning
open Recognizer (Extends Hungry)

variable {ρ φ κ ν σ : Type}

/-! ### The verdicts of a parse -/

/-- Every run that ends has the verdict of `f`. -/
abbrev Judges (m : Meaning κ σ) (f : Recognizer κ) : Prop := Keeps (fun _ => ()) m f

variable {p : κ → Bool} {m m' : Meaning κ σ} {f f' g : Recognizer κ} {s t : List κ} {st st' : σ}
  {v : Verdict}

theorem Keeps.lift {β : Type} {get : σ → β} : Keeps get (Meaning.lift f) f :=
  (Silent.lift f).keeps

namespace Judges

theorem verdict (h : Judges m f) (hm : m s st = .ok (v, st')) : v = f s := (h s st v st' hm).1

/-- A run ends in a fault or with the verdict of `f`. -/
theorem run_cases (h : Judges m f) (s : List κ) (st : σ) :
    (∃ e, m s st = .error e) ∨ ∃ st', m s st = .ok (f s, st') := by
  cases hm : m s st with
  | error e => exact .inl ⟨e, rfl⟩
  | ok q => exact .inr ⟨q.2, by rw [← h.verdict hm]⟩

theorem of_verdict (h : ∀ s st v st', m s st = .ok (v, st') → v = f s) : Judges m f :=
  fun s st v st' hm => ⟨h s st v st' hm, rfl⟩

theorem bounded (h : Judges m f) : m.Bounded := by
  intro s st n st' hm
  exact Recognizer.le_length (h.verdict hm).symm

theorem finish {accepted : List κ → σ → Except Fault σ} {failed : σ → σ} (h : Judges m f) :
    Judges (m.finish accepted failed) f := by
  refine of_verdict fun s st v st' hrun => ?_
  obtain ⟨st₁, hm, -⟩ := finish_cases hrun
  exact h.verdict hm

theorem locally {before : σ → σ} {accepted : σ → List κ → σ → Except Fault σ} {failed : σ → σ → σ}
    (h : Judges m f) : Judges (m.locally before accepted failed) f :=
  of_verdict fun _ _ _ _ hrun => h.finish.verdict hrun

theorem loop (h : Judges m f) : Judges m.loop f.star := by
  refine of_verdict fun s => ?_
  induction hn : s.length using Nat.strongRecOn generalizing s with
  | ind n ih =>
      intro st v st' hrun
      rw [Meaning.loop_eq h.bounded, turn, bind_ok_iff] at hrun
      obtain ⟨w, st₁, hm, hrest⟩ := hrun
      have hw := h.verdict hm
      cases w with
      | accept k =>
          cases k with
          | zero =>
              cases hrest
              rw [Recognizer.star_eq, ← hw]
          | succ k =>
              have hle := h.bounded s st _ st₁ hm
              have hlt : (s.drop (k + 1)).length < n := by
                rw [List.length_drop]
                omega
              obtain ⟨w', st₂, hloop, hend⟩ := bind_ok_iff.1 hrest
              cases hend
              rw [Recognizer.star_of_accept hw.symm (Nat.succ_pos k), ih _ hlt _ rfl _ _ _ hloop]
      | incomplete =>
          cases hrest
          exact (Recognizer.star_of_incomplete hw.symm).symm
      | reject =>
          cases hrest
          exact (Recognizer.star_of_reject hw.symm).symm

end Judges

/-! ### Copies of the runner -/

section Copies

variable {Γ : Env ρ φ κ} {V : Visitors ρ φ κ ν σ} {u : ν} {r : Rule ρ φ} (args : Option ν)
  (before : σ → σ) (accepted : σ → List κ → σ → Except Fault σ) (failed : σ → σ → σ)

/-- The verdict of a visitor that calls a copy is that of the parse without visitors. -/
theorem judges_callCopy
    (h : V.operator u r = some fun st => .call true args (accepted st) (failed st) (before st))
    (hnone : meaning Γ V none r = lift f) : Judges (meaning Γ V (some u) r) f := by
  refine .of_verdict fun s st v st' hrun => ?_
  rw [meaning_callCopy h, bind_ok_iff] at hrun
  obtain ⟨w, st₁, -, hrun⟩ := hrun
  rw [hnone] at hrun
  cases hrun
  rfl

/-- Where the visitor that is handed on changes no verdict, the second parse changes nothing. -/
theorem meaning_callCopy_locally
    (h : V.operator u r = some fun st => .call true args (accepted st) (failed st) (before st))
    (hnone : meaning Γ V none r = lift f) (hargs : Judges (meaning Γ V args r) f) :
    meaning Γ V (some u) r = (meaning Γ V args r).locally before accepted failed := by
  funext s st
  rw [meaning_callCopy h, hnone, Meaning.locally]
  cases hm : (meaning Γ V args r).finish (accepted st) (failed st) s (before st) with
  | error e => rw [bind_of_error hm]
  | ok q =>
      obtain ⟨v, st'⟩ := q
      rw [bind_of_ok hm, lift_apply, hargs.finish.verdict hm]

end Copies

/-! ### Texts that a visitor takes -/

section Locally

variable {before : σ → σ} {accepted : σ → List κ → σ → Except Fault σ} {failed : σ → σ → σ}
  {x y : List κ} {st₁ : σ}

theorem Takes.locally (h : Takes m x y (before st) st₁) (ha : accepted st x st₁ = .ok st') :
    Takes (m.locally before accepted failed) x y st st' :=
  Takes.finish h ha

theorem Refuses.locally (h : Refuses m y (before st) st₁) (hf : failed st st₁ = st') :
    Refuses (m.locally before accepted failed) y st st' := by
  rw [← hf]
  exact Refuses.finish h

end Locally

/-! ### Extensions of the input -/

/-- Two runs that change the state alike do so with the position moved on. -/
theorem advance_extend {x y : Exec σ Verdict} {n : ℕ}
    (h : y st = (x st).map fun q => (v, q.2)) :
    (y >>= fun w => pure (w.advance n)) st =
      ((x >>= fun w => pure (w.advance n)) st).map fun q => (v.advance n, q.2) := by
  cases hx : x st with
  | error e =>
      rw [hx] at h
      rw [bind_of_error hx, bind_of_error h]
      rfl
  | ok q =>
      rw [hx] at h
      rw [bind_of_ok hx, bind_of_ok h]
      rfl

/-- Every run that ends has the verdict of `f`; and where that is final, the runs on an extension of
the input change the state as those on the input do. -/
structure Persists (m : Meaning κ σ) (f : Recognizer κ) : Prop where
  judges : Judges m f
  extend : ∀ s t st, f s ≠ .incomplete →
    m (s ++ t) st = (m s st).map fun q => (f (s ++ t), q.2)

namespace Persists

theorem of_error {e : Fault} (h : Persists m f) (hm : m s st = .error e) (hf : f s ≠ .incomplete)
    (t : List κ) : m (s ++ t) st = .error e := by
  rw [h.extend s t st hf, hm]
  rfl

theorem of_ok (h : Persists m f) (hm : m s st = .ok (v, st')) (hv : v ≠ .incomplete) (t : List κ) :
    m (s ++ t) st = .ok (f (s ++ t), st') := by
  rw [h.extend s t st (h.judges.verdict hm ▸ hv), hm]
  rfl

theorem lift : Persists (Meaning.lift f : Meaning κ σ) f where
  judges := .lift
  extend _ _ _ _ := rfl

/-- A second part that asks for more on the empty input begins where something is left. -/
theorem seq (h : Persists m f) (hf : Extends p f) (h' : Persists m' f') (hungry : Hungry f') :
    Persists (m.seq m') (f.seq f') where
  judges := Keeps.seq h.judges h'.judges
  extend s t st hne := by
    cases hs : f s with
    | incomplete => exact absurd (Recognizer.seq_of_incomplete hs) hne
    | reject =>
        have hrej := hf.rejected s t hs
        rcases h.judges.run_cases s st with ⟨e, hm⟩ | ⟨st₁, hm⟩
        · rw [seq_of_error hm, seq_of_error (h.of_error hm (by simp [hs]) t)]
          rfl
        · have hm' := h.of_ok hm (by simp [hs]) t
          rw [hs] at hm
          rw [hrej] at hm'
          rw [seq_of_reject hm, seq_of_reject hm', Recognizer.seq_of_reject hrej]
          rfl
    | accept n =>
        rw [Recognizer.seq_of_accept hs] at hne
        have hrest : f' (s.drop n) ≠ .incomplete := fun hinc => hne (by rw [hinc]; rfl)
        -- the second part would ask for more at the end
        have hlt : n < s.length := by
          by_contra hle
          rw [List.drop_eq_nil_of_le (by omega)] at hrest
          exact hrest hungry
        obtain ⟨hacc, hdrop⟩ := hf.accept_of_lt hs hlt t
        rcases h.judges.run_cases s st with ⟨e, hm⟩ | ⟨st₁, hm⟩
        · rw [seq_of_error hm, seq_of_error (h.of_error hm (by simp [hs]) t)]
          rfl
        · have hm' := h.of_ok hm (by simp [hs]) t
          rw [hs] at hm
          rw [hacc] at hm'
          rw [seq_of_accept hm, seq_of_accept hm', Recognizer.seq_of_accept hacc, hdrop]
          exact advance_extend (h'.extend (s.drop n) t st₁ hrest)

/-- A second part that changes nothing. -/
theorem seq_lift (h : Persists m f) : Persists (m.seq (Meaning.lift g)) (f.seq g) where
  judges := Keeps.seq h.judges .lift
  extend s t st hne := by
    have hfs : f s ≠ .incomplete := fun hinc => hne (Recognizer.seq_of_incomplete hinc)
    have hrun (x : List κ) {st₁ : σ} (hm : m x st = .ok (f x, st₁)) :
        m.seq (Meaning.lift g) x st = .ok (f.seq g x, st₁) := by
      have hsilent : Silent id (Meaning.lift g : Meaning κ σ) g := .lift g
      obtain ⟨st', hseq, hst⟩ := hsilent.seq_run hm
      rw [hseq, show st' = st₁ from hst]
    rcases h.judges.run_cases s st with ⟨e, hm⟩ | ⟨st₁, hm⟩
    · rw [seq_of_error hm, seq_of_error (h.of_error hm hfs t)]
      rfl
    · rw [hrun s hm, hrun (s ++ t) (h.of_ok hm hfs t)]
      rfl

theorem alt (h : Persists m f) (hf : Extends p f) (h' : Persists m' f') :
    Persists (m.alt m') (f.alt f') where
  judges := Keeps.alt h.judges h'.judges
  extend s t st hne := by
    have hfs : f s ≠ .incomplete := fun hinc => hne (Recognizer.alt_of_incomplete hinc)
    rcases h.judges.run_cases s st with ⟨e, hm⟩ | ⟨st₁, hm⟩
    · rw [alt_of_error hm, alt_of_error (h.of_error hm hfs t)]
      rfl
    · have hm' := h.of_ok hm hfs t
      cases hs : f s with
      | incomplete => exact absurd hs hfs
      | accept n =>
          obtain ⟨k, hk, -⟩ := hf.accepted s t n hs
          rw [hs] at hm
          rw [hk] at hm'
          rw [alt_of_accept hm, alt_of_accept hm', Recognizer.alt_of_ne_reject (by simp [hk]), hk]
          rfl
      | reject =>
          have hrej := hf.rejected s t hs
          rw [hs] at hm
          rw [hrej] at hm'
          rw [Recognizer.alt_of_reject hs] at hne
          rw [alt_of_reject hm, alt_of_reject hm', Recognizer.alt_of_reject hrej,
            h'.extend s t st₁ hne]

theorem opt (h : Persists m f) (hf : Extends p f) : Persists m.opt f.opt := h.alt hf lift

theorem loop (h : Persists m f) (hf : Extends p f) (hungry : Hungry f) :
    Persists m.loop f.star where
  judges := h.judges.loop
  extend s t := by
    induction hN : s.length using Nat.strongRecOn generalizing s with
    | ind N ih =>
        intro st hne
        have hfs : f s ≠ .incomplete := fun hinc => hne (Recognizer.star_of_incomplete hinc)
        rw [Meaning.loop_eq h.judges.bounded]
        rcases h.judges.run_cases s st with ⟨e, hm⟩ | ⟨st₁, hm⟩
        · rw [turn, turn, bind_of_error hm, bind_of_error (h.of_error hm hfs t)]
          rfl
        · have hm' := h.of_ok hm hfs t
          cases hs : f s with
          | incomplete => exact absurd hs hfs
          | reject =>
              have hrej := hf.rejected s t hs
              rw [hs] at hm
              rw [hrej] at hm'
              rw [turn_of_reject hm, turn_of_reject hm', Recognizer.star_of_reject hrej]
              rfl
          | accept n =>
              have hpos := hungry.lt hs
              rw [hs] at hm
              cases n with
              | zero =>
                  obtain ⟨hacc, -⟩ := hf.accept_of_lt hs hpos t
                  rw [hacc] at hm'
                  rw [turn, turn, bind_of_ok hm, bind_of_ok hm', Recognizer.star_eq, hacc]
                  rfl
              | succ n =>
                  rw [Recognizer.star_of_accept hs (Nat.succ_pos n)] at hne
                  have hrest : f.star (s.drop (n + 1)) ≠ .incomplete :=
                    fun hinc => hne (by rw [hinc]; rfl)
                  -- the next iteration asks for more at the end
                  have hlt : n + 1 < s.length := by
                    by_contra hle
                    rw [List.drop_eq_nil_of_le (by omega)] at hrest
                    exact hrest hungry.star
                  obtain ⟨hacc, hdrop⟩ := hf.accept_of_lt hs hlt t
                  rw [hacc] at hm'
                  have hlength : (s.drop (n + 1)).length < N := by
                    rw [List.length_drop]
                    omega
                  rw [turn_of_accept hm (Nat.succ_pos n), turn_of_accept hm' (Nat.succ_pos n),
                    Recognizer.star_of_accept hacc (Nat.succ_pos n), hdrop]
                  exact advance_extend (ih _ hlength _ rfl st₁ hrest)

/-- A visitor that makes the same of a text and of what it may be extended to. -/
theorem locally {before : σ → σ} {accepted : σ → List κ → σ → Except Fault σ} {failed : σ → σ → σ}
    (h : Persists m f) (hf : Extends p f)
    (hsame : ∀ s n w st st', f s = .accept n → (∀ a ∈ w, p a = true) →
      accepted st (s.take n ++ w) st' = accepted st (s.take n) st') :
    Persists (m.locally before accepted failed) f where
  judges := h.judges.locally
  extend s t st hfs := by
    rw [Meaning.locally, Meaning.locally, Meaning.finish, Meaning.finish]
    rcases h.judges.run_cases s (before st) with ⟨e, hm⟩ | ⟨st₁, hm⟩
    · rw [bind_of_error hm, bind_of_error (h.of_error hm hfs t)]
      rfl
    · rw [bind_of_ok hm, bind_of_ok (h.of_ok hm hfs t)]
      cases hs : f s with
      | incomplete => exact absurd hs hfs
      | reject =>
          rw [hf.rejected s t hs]
          rfl
      | accept n =>
          obtain ⟨w, htake, hw⟩ := hf.take_append hs t
          obtain ⟨k, hk, -⟩ := hf.accepted s t n hs
          have htext : (s ++ t).take (n + k) = s.take n ++ w := htake _ hk
          simp only [hk, htext, hsame s n w st st₁ hs hw]
          cases accepted st (s.take n) st₁ <;> rfl

end Persists

end Hittop
