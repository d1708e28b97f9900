/-
**What the runs of a parse do to a part of the state.**

A parse that is put together from recognizers and assignments is known when three things are known
about it: which runs leave a part of the state alone, which runs set a part that nothing was
assigned to before, and where two parses that differ in what they undo agree.  Each of the three
goes through the combinators, and so does what the parse makes of a text that it takes.

Main definitions:

* `Hittop.Keeps` — the runs that end leave a part of the state alone;
* `Hittop.Leads`, `Hittop.Leaves` — the states that a parse leads to;
* `Hittop.Sets` — the runs that end set a part of the state;
* `Hittop.Tracks` — two parses agree on a part of the state;
* `Hittop.Takes`, `Hittop.Refuses` — what a parse does with a text.

Main results:

* `Hittop.Meaning.seq_cases`, … — what a run of a combinator consists of;
* `Hittop.Sets.alt_keeps`, `Hittop.Sets.orElse_keeps` — ordered choice without and with undoing;
* `Hittop.Tracks.choice` — where they agree all the same;
* `Hittop.Takes.seq`, `Hittop.Takes.loop_flatten`, … — texts that are taken one after the other.
-/

import Hittop.Library.Reads
import Hittop.Recording

set_option relaxedAutoImplicit false
set_option autoImplicit false

namespace Hittop

open Exec

variable {κ σ β : Type}

/-! ### What a run consists of -/

namespace Meaning

variable {m m' : Meaning κ σ} {s : List κ} {st st' : σ} {v : Verdict}

theorem seq_cases (h : m.seq m' s st = .ok (v, st')) :
    (∃ n st₁ w, m s st = .ok (.accept n, st₁) ∧ m' (s.drop n) st₁ = .ok (w, st') ∧
      v = w.advance n) ∨ (m s st = .ok (v, st') ∧ ∀ n, v ≠ .accept n) := by
  cases hm : m s st with
  | error e =>
      rw [seq_of_error hm] at h
      cases h
  | ok q =>
      obtain ⟨w, st₁⟩ := q
      cases w with
      | accept n =>
          rw [seq_of_accept hm, bind_ok_iff] at h
          obtain ⟨w, st₂, hm', hw⟩ := h
          cases hw
          exact .inl ⟨n, st₁, w, rfl, hm', rfl⟩
      | incomplete =>
          rw [seq_of_incomplete hm] at h
          cases h
          exact .inr ⟨rfl, fun n => by simp⟩
      | reject =>
          rw [seq_of_reject hm] at h
          cases h
          exact .inr ⟨rfl, fun n => by simp⟩

theorem seq_assoc {m'' : Meaning κ σ} : (m.seq m').seq m'' = m.seq (m'.seq m'') := by
  funext s st
  cases hm : m s st with
  | error e => rw [seq_of_error hm, seq_of_error (seq_of_error hm)]
  | ok q =>
      obtain ⟨v, st₁⟩ := q
      cases v with
      | accept n =>
          cases hm' : m' (s.drop n) st₁ with
          | error e =>
              have hpair : m.seq m' s st = .error e := by rw [seq_of_accept hm, bind_of_error hm']
              rw [seq_of_error hpair, seq_of_accept hm, bind_of_error (seq_of_error hm')]
          | ok q =>
              obtain ⟨w, st₂⟩ := q
              have hpair := seq_ok hm hm'
              cases w with
              | accept k =>
                  have hdrop : (s.drop n).drop k = s.drop (n + k) := List.drop_drop
                  cases hm'' : m'' (s.drop (n + k)) st₂ with
                  | error e =>
                      have hrest : m'.seq m'' (s.drop n) st₁ = .error e := by
                        rw [seq_of_accept hm', hdrop, bind_of_error hm'']
                      rw [seq_of_accept hpair, bind_of_error hm'', seq_of_accept hm,
                        bind_of_error hrest]
                  | ok q =>
                      obtain ⟨u, st₃⟩ := q
                      have hrest := seq_ok hm' (hdrop ▸ hm'')
                      rw [seq_ok hpair hm'', seq_ok hm hrest, Verdict.advance_advance]
              | incomplete =>
                  rw [seq_of_incomplete hpair, seq_ok hm (seq_of_incomplete hm')]
                  rfl
              | reject =>
                  rw [seq_of_reject hpair, seq_ok hm (seq_of_reject hm')]
                  rfl
      | incomplete => rw [seq_of_incomplete hm, seq_of_incomplete (seq_of_incomplete hm)]
      | reject => rw [seq_of_reject hm, seq_of_reject (seq_of_reject hm)]

theorem alt_cases (h : m.alt m' s st = .ok (v, st')) :
    (m s st = .ok (v, st') ∧ v ≠ .reject) ∨
      ∃ st₁, m s st = .ok (.reject, st₁) ∧ m' s st₁ = .ok (v, st') := by
  cases hm : m s st with
  | error e =>
      rw [alt_of_error hm] at h
      cases h
  | ok q =>
      obtain ⟨w, st₁⟩ := q
      cases w with
      | accept n =>
          rw [alt_of_accept hm] at h
          cases h
          exact .inl ⟨rfl, by simp⟩
      | incomplete =>
          rw [alt_of_incomplete hm] at h
          cases h
          exact .inl ⟨rfl, by simp⟩
      | reject =>
          rw [alt_of_reject hm] at h
          exact .inr ⟨st₁, rfl, h⟩

theorem orElse_of_reject (h : m s st = .ok (.reject, st')) : m.orElse m' s st = m' s st := by
  rw [orElse, h]

theorem orElse_of_ne_reject (h : m s st = .ok (v, st')) (hv : v ≠ .reject) :
    m.orElse m' s st = .ok (v, st') := by
  rw [orElse, h]
  cases v with
  | reject => exact absurd rfl hv
  | _ => rfl

theorem orElse_of_error {e : Fault} (h : m s st = .error e) : m.orElse m' s st = .error e := by
  rw [orElse, h]

theorem orElse_cases (h : m.orElse m' s st = .ok (v, st')) :
    (m s st = .ok (v, st') ∧ v ≠ .reject) ∨
      ∃ st₁, m s st = .ok (.reject, st₁) ∧ m' s st = .ok (v, st') := by
  cases hm : m s st with
  | error e =>
      rw [orElse_of_error hm] at h
      cases h
  | ok q =>
      obtain ⟨w, st₁⟩ := q
      by_cases hw : w = .reject
      · subst hw
        rw [orElse_of_reject hm] at h
        exact .inr ⟨st₁, rfl, h⟩
      · rw [orElse_of_ne_reject hm hw] at h
        cases h
        exact .inl ⟨rfl, hw⟩

theorem finish_cases {accepted : List κ → σ → Except Fault σ} {failed : σ → σ}
    (h : m.finish accepted failed s st = .ok (v, st')) : ∃ st₁, m s st = .ok (v, st₁) ∧
      ((∃ n, v = .accept n ∧ accepted (s.take n) st₁ = .ok st') ∨
        ((∀ n, v ≠ .accept n) ∧ st' = failed st₁)) := by
  rw [finish, bind_ok_iff] at h
  obtain ⟨w, st₁, hm, h⟩ := h
  cases w with
  | accept n =>
      cases ha : accepted (s.take n) st₁ with
      | error e =>
          simp only [ha] at h
          cases h
      | ok st₂ =>
          simp only [ha] at h
          cases h
          exact ⟨st₁, hm, .inl ⟨n, rfl, ha⟩⟩
  | incomplete =>
      cases h
      exact ⟨st₁, hm, .inr ⟨fun n => by simp, rfl⟩⟩
  | reject =>
      cases h
      exact ⟨st₁, hm, .inr ⟨fun n => by simp, rfl⟩⟩

theorem record_cases {f : Recognizer κ} {part : List κ → σ → σ}
    (h : record f part s st = .ok (v, st')) :
    (∃ n, v = .accept n ∧ f s = .accept n ∧ st' = part (s.take n) st) ∨
      ((∀ n, v ≠ .accept n) ∧ v = f s ∧ st' = st) := by
  cases hf : f s with
  | accept n =>
      rw [record, hf] at h
      cases h
      exact .inl ⟨n, rfl, rfl, rfl⟩
  | incomplete =>
      rw [record, hf] at h
      cases h
      exact .inr ⟨fun n => by simp, rfl, rfl⟩
  | reject =>
      rw [record, hf] at h
      cases h
      exact .inr ⟨fun n => by simp, rfl, rfl⟩

theorem lift_cases {f : Recognizer κ} (h : lift f s st = .ok (v, st')) : f s = v ∧ st' = st := by
  cases h
  exact ⟨rfl, rfl⟩

theorem record_accept {f : Recognizer κ} {part : List κ → σ → σ} {n : ℕ}
    (h : record f part s st = .ok (.accept n, st')) :
    f s = .accept n ∧ st' = part (s.take n) st := by
  rcases record_cases h with ⟨k, hk, hf, rfl⟩ | ⟨hno, -⟩
  · cases hk
    exact ⟨hf, rfl⟩
  · exact absurd rfl (hno n)

theorem through_cases {τ : Type} {q : Pointer τ σ} {t t' : τ}
    (h : m.through q s t = .ok (v, t')) :
    ∃ st', m s (q.get t) = .ok (v, st') ∧ t' = q.set st' t := by
  cases hm : m s (q.get t) with
  | error e =>
      rw [through, Exec.through, hm] at h
      cases h
  | ok r =>
      rw [through, Exec.through, hm] at h
      cases h
      exact ⟨r.2, rfl, rfl⟩

theorem seq_accept_cases {k : ℕ} (h : m.seq m' s st = .ok (.accept k, st')) :
    ∃ a b st₁, m s st = .ok (.accept a, st₁) ∧ m' (s.drop a) st₁ = .ok (.accept b, st') ∧
      k = a + b := by
  rcases seq_cases h with ⟨a, st₁, w, hm, hm', hk⟩ | ⟨-, hk⟩
  · obtain ⟨b, rfl, hb⟩ := Verdict.advance_eq_accept.1 hk.symm
    exact ⟨a, b, st₁, hm, hm', hb⟩
  · exact absurd rfl (hk k)

/-- A loop that ends has taken pieces one after the other, and the turn behind them rejects. -/
theorem loop_items {ι : Type} {text : ι → List κ} {step : ι → σ → σ} (hm : m.Bounded)
    (haccept : ∀ s st n st', m s st = .ok (.accept n, st') →
      ∃ i, text i ≠ [] ∧ s.take n = text i ∧ st' = step i st) {n : ℕ}
    (h : m.loop s st = .ok (.accept n, st')) :
    ∃ items : List ι, s.take n = items.flatMap text ∧
      m (s.drop n) (items.foldl (fun st i => step i st) st) = .ok (.reject, st') := by
  induction hlength : s.length using Nat.strongRecOn generalizing s st n with
  | ind len ih =>
      rw [loop_eq hm, turn, bind_ok_iff] at h
      obtain ⟨w, st₁, hturn, hrest⟩ := h
      cases w with
      | accept k =>
          obtain ⟨i, hne, htake, rfl⟩ := haccept s st k st₁ hturn
          cases k with
          | zero => exact absurd htake.symm hne
          | succ k =>
              have hle := hm s st _ _ hturn
              obtain ⟨w, st₂, hloop, hend⟩ := bind_ok_iff.1 hrest
              cases w with
              | accept j =>
                  cases hend
                  have hlt : (s.drop (k + 1)).length < len := by
                    rw [List.length_drop]
                    omega
                  obtain ⟨items, hitems, hlast⟩ := ih _ hlt hloop rfl
                  refine ⟨i :: items, ?_, ?_⟩
                  · rw [List.flatMap_cons, ← htake, ← hitems, List.take_add]
                  · rw [List.foldl_cons, ← List.drop_drop]
                    exact hlast
              | incomplete => cases hend
              | reject => cases hend
      | incomplete => cases hrest
      | reject =>
          cases hrest
          exact ⟨[], List.take_zero, hturn⟩

/-- The pieces a loop has taken, where a turn that rejects changes nothing. -/
theorem loop_pieces {ι : Type} {text : ι → List κ} {step : ι → σ → σ} (hm : m.Bounded)
    (haccept : ∀ s st n st', m s st = .ok (.accept n, st') →
      ∃ i, text i ≠ [] ∧ s.take n = text i ∧ st' = step i st)
    (hreject : ∀ s st st', m s st = .ok (.reject, st') → st' = st) {n : ℕ}
    (h : m.loop s st = .ok (.accept n, st')) :
    ∃ items : List ι, s.take n = items.flatMap text ∧
      st' = items.foldl (fun st i => step i st) st := by
  obtain ⟨items, hitems, hlast⟩ := loop_items hm haccept h
  exact ⟨items, hitems, hreject _ _ _ hlast⟩

end Meaning

open Meaning

/-! ### Parts that are left alone -/

/-- Every run that ends has the verdict of `f` and leaves the part `get` of the state alone. -/
def Keeps (get : σ → β) (m : Meaning κ σ) (f : Recognizer κ) : Prop :=
  ∀ s st v st', m s st = .ok (v, st') → v = f s ∧ get st' = get st

variable {get : σ → β} {m m' : Meaning κ σ} {f f' : Recognizer κ}

theorem Silent.keeps (h : Silent get m f) : Keeps get m f := by
  intro s st v st' hm
  obtain ⟨st₁, hm', hget⟩ := h s st
  rw [hm] at hm'
  cases hm'
  exact ⟨rfl, hget⟩

namespace Keeps

theorem seq (h : Keeps get m f) (h' : Keeps get m' f') : Keeps get (m.seq m') (f.seq f') := by
  intro s st v st' hrun
  rcases seq_cases hrun with ⟨n, st₁, w, hm, hm', rfl⟩ | ⟨hm, hv⟩
  · obtain ⟨hf, hget⟩ := h _ _ _ _ hm
    obtain ⟨hf', hget'⟩ := h' _ _ _ _ hm'
    exact ⟨by rw [Recognizer.seq_of_accept hf.symm, hf'], hget'.trans hget⟩
  · obtain ⟨hf, hget⟩ := h _ _ _ _ hm
    refine ⟨?_, hget⟩
    cases v with
    | accept n => exact absurd rfl (hv n)
    | incomplete => exact (Recognizer.seq_of_incomplete hf.symm).symm
    | reject => exact (Recognizer.seq_of_reject hf.symm).symm

theorem alt (h : Keeps get m f) (h' : Keeps get m' f') : Keeps get (m.alt m') (f.alt f') := by
  intro s st v st' hrun
  rcases alt_cases hrun with ⟨hm, hv⟩ | ⟨st₁, hm, hm'⟩
  · obtain ⟨rfl, hget⟩ := h _ _ _ _ hm
    exact ⟨(Recognizer.alt_of_ne_reject hv).symm, hget⟩
  · obtain ⟨hf, hget⟩ := h _ _ _ _ hm
    obtain ⟨hf', hget'⟩ := h' _ _ _ _ hm'
    exact ⟨by rw [Recognizer.alt_of_reject hf.symm, hf'], hget'.trans hget⟩

theorem orElse (h : Keeps get m f) (h' : Keeps get m' f') :
    Keeps get (m.orElse m') (f.alt f') := by
  intro s st v st' hrun
  rcases orElse_cases hrun with ⟨hm, hv⟩ | ⟨st₁, hm, hm'⟩
  · obtain ⟨rfl, hget⟩ := h _ _ _ _ hm
    exact ⟨(Recognizer.alt_of_ne_reject hv).symm, hget⟩
  · obtain ⟨hf, -⟩ := h _ _ _ _ hm
    obtain ⟨hf', hget'⟩ := h' _ _ _ _ hm'
    exact ⟨by rw [Recognizer.alt_of_reject hf.symm, hf'], hget'⟩

theorem finish (h : Keeps get m f) {accepted : List κ → σ → Except Fault σ} {failed : σ → σ}
    (ha : ∀ text st st', accepted text st = .ok st' → get st' = get st)
    (hf : ∀ st, get (failed st) = get st) : Keeps get (m.finish accepted failed) f := by
  intro s st v st' hrun
  obtain ⟨st₁, hm, hst⟩ := finish_cases hrun
  obtain ⟨hv, hget⟩ := h _ _ _ _ hm
  rcases hst with ⟨n, -, hst⟩ | ⟨-, rfl⟩
  · exact ⟨hv, (ha _ _ _ hst).trans hget⟩
  · exact ⟨hv, (hf _).trans hget⟩

end Keeps

/-! ### Parts that are set -/

/-- Every run that ends has the verdict of `f`, and where the part `get` was not set it is `p`
afterwards. -/
def Sets (get : σ → Option β) (m : Meaning κ σ) (f : Recognizer κ) (p : List κ → Option β) : Prop :=
  ∀ s st v st', get st = none → m s st = .ok (v, st') → v = f s ∧ get st' = p s

theorem Keeps.sets {get : σ → Option β} (h : Keeps get m f) : Sets get m f fun _ => none := by
  intro s st v st' hst hm
  obtain ⟨hv, hget⟩ := h _ _ _ _ hm
  exact ⟨hv, hget.trans hst⟩

namespace Sets

variable {get : σ → Option β} {p p' : List κ → Option β}

theorem record {get : σ → Option (List κ)} {part : List κ → σ → σ}
    (h : ∀ text st, get (part text st) = some text) :
    Sets get (Meaning.record f part) f f.textOf := by
  intro s st v st' hst hm
  cases hm
  refine ⟨rfl, ?_⟩
  rw [Recognizer.textOf]
  cases f s with
  | accept n => exact h _ _
  | incomplete => exact hst
  | reject => exact hst

theorem seq_keeps (h : Sets get m f p) (h' : Keeps get m' f') :
    Sets get (m.seq m') (f.seq f') p := by
  intro s st v st' hst hrun
  rcases seq_cases hrun with ⟨n, st₁, w, hm, hm', rfl⟩ | ⟨hm, hv⟩
  · obtain ⟨hf, hget⟩ := h _ _ _ _ hst hm
    obtain ⟨hf', hget'⟩ := h' _ _ _ _ hm'
    exact ⟨by rw [Recognizer.seq_of_accept hf.symm, hf'], hget'.trans hget⟩
  · obtain ⟨hf, hget⟩ := h _ _ _ _ hst hm
    refine ⟨?_, hget⟩
    cases v with
    | accept n => exact absurd rfl (hv n)
    | incomplete => exact (Recognizer.seq_of_incomplete hf.symm).symm
    | reject => exact (Recognizer.seq_of_reject hf.symm).symm

theorem keeps_seq (h : Keeps get m f) (h' : Sets get m' f' p') :
    Sets get (m.seq m') (f.seq f') (f.after p') := by
  intro s st v st' hst hrun
  rcases seq_cases hrun with ⟨n, st₁, w, hm, hm', rfl⟩ | ⟨hm, hv⟩
  · obtain ⟨hf, hget⟩ := h _ _ _ _ hm
    obtain ⟨hf', hget'⟩ := h' _ _ _ _ (hget.trans hst) hm'
    rw [Recognizer.seq_of_accept hf.symm, Recognizer.after_of_accept hf.symm, hf']
    exact ⟨rfl, hget'⟩
  · obtain ⟨hf, hget⟩ := h _ _ _ _ hm
    cases v with
    | accept n => exact absurd rfl (hv n)
    | incomplete =>
        rw [Recognizer.seq_of_incomplete hf.symm, Recognizer.after_of_incomplete hf.symm]
        exact ⟨rfl, hget.trans hst⟩
    | reject =>
        rw [Recognizer.seq_of_reject hf.symm, Recognizer.after_of_reject hf.symm]
        exact ⟨rfl, hget.trans hst⟩

/-- Without undoing, what a rejected alternative has set remains. -/
theorem alt_keeps (h : Sets get m f p) (h' : Keeps get m' f') :
    Sets get (m.alt m') (f.alt f') p := by
  intro s st v st' hst hrun
  rcases alt_cases hrun with ⟨hm, hv⟩ | ⟨st₁, hm, hm'⟩
  · obtain ⟨rfl, hget⟩ := h _ _ _ _ hst hm
    exact ⟨(Recognizer.alt_of_ne_reject hv).symm, hget⟩
  · obtain ⟨hf, hget⟩ := h _ _ _ _ hst hm
    obtain ⟨hf', hget'⟩ := h' _ _ _ _ hm'
    exact ⟨by rw [Recognizer.alt_of_reject hf.symm, hf'], hget'.trans hget⟩

/-- A first alternative that sets nothing where it rejects: undoing makes no difference. -/
theorem alt (h : Sets get m f p) (hp : f.Commits p) (h' : Sets get m' f' p') :
    Sets get (m.alt m') (f.alt f') fun s => if f s = .reject then p' s else p s := by
  intro s st v st' hst hrun
  rcases alt_cases hrun with ⟨hm, hv⟩ | ⟨st₁, hm, hm'⟩
  · obtain ⟨rfl, hget⟩ := h _ _ _ _ hst hm
    exact ⟨(Recognizer.alt_of_ne_reject hv).symm, hget.trans (if_neg hv).symm⟩
  · obtain ⟨hf, hget⟩ := h _ _ _ _ hst hm
    obtain ⟨hf', hget'⟩ := h' _ _ _ _ (hget.trans (hp s hf.symm)) hm'
    exact ⟨by rw [Recognizer.alt_of_reject hf.symm, hf'], hget'.trans (if_pos hf.symm).symm⟩

theorem orElse (h : Sets get m f p) (h' : Sets get m' f' p') :
    Sets get (m.orElse m') (f.alt f') fun s => if f s = .reject then p' s else p s := by
  intro s st v st' hst hrun
  rcases orElse_cases hrun with ⟨hm, hv⟩ | ⟨st₁, hm, hm'⟩
  · obtain ⟨rfl, hget⟩ := h _ _ _ _ hst hm
    exact ⟨(Recognizer.alt_of_ne_reject hv).symm, hget.trans (if_neg hv).symm⟩
  · obtain ⟨hf, -⟩ := h _ _ _ _ hst hm
    obtain ⟨hf', hget'⟩ := h' _ _ _ _ hst hm'
    exact ⟨by rw [Recognizer.alt_of_reject hf.symm, hf'], hget'.trans (if_pos hf.symm).symm⟩

/-- With undoing it does not. -/
theorem orElse_keeps (h : Sets get m f p) (h' : Keeps get m' f') :
    Sets get (m.orElse m') (f.alt f') fun s => if f s = .reject then none else p s :=
  h.orElse h'.sets

theorem congr (h : Sets get m f p) (hp : ∀ s, p s = p' s) : Sets get m f p' := by
  intro s st v st' hst hm
  obtain ⟨hv, hget⟩ := h _ _ _ _ hst hm
  exact ⟨hv, hget.trans (hp s)⟩

end Sets

/-! ### Parses that agree -/

/-- Two runs from `st` agree on a part of the state; where they reject, it is as it was. -/
inductive Agree (get : σ → β) (st : σ) :
    Except Fault (Verdict × σ) → Except Fault (Verdict × σ) → Prop
  | error (e : Fault) : Agree get st (.error e) (.error e)
  | ok (v : Verdict) (w w' : σ) (same : get w = get w')
      (rejected : v = .reject → get w = get st) : Agree get st (.ok (v, w)) (.ok (v, w'))

/-- Agreement on a part is agreement on what is a function of it. -/
theorem Agree.mono {γ : Type} {get' : σ → γ} {st st' : σ} {x y : Except Fault (Verdict × σ)}
    (h : Agree get st x y) (hget : ∀ w w', get w = get w' → get' w = get' w')
    (hst : ∀ w, get w = get st → get' w = get' st') : Agree get' st' x y := by
  cases h with
  | error e => exact .error e
  | ok v w w' same rejected => exact .ok v w w' (hget _ _ same) fun hv => hst w (rejected hv)

/-- The runs of two parses from states that agree on the part `get` agree on it. -/
def Tracks (get : σ → β) (m m' : Meaning κ σ) : Prop :=
  ∀ s st st', get st = get st' → Agree get st (m s st) (m' s st')

/-- The runs of a parse never end in a rejection. -/
def Settles (m : Meaning κ σ) : Prop := ∀ s st st', m s st ≠ .ok (.reject, st')

theorem Keeps.settles (h : Keeps get m f) (hf : f.Lenient) : Settles m :=
  fun s st st' hm => hf s (h s st _ st' hm).1.symm

namespace Tracks

variable {n n' : Meaning κ σ}

theorem lift (f : Recognizer κ) : Tracks get (Meaning.lift f) (Meaning.lift f) :=
  fun s st st' h => .ok (f s) st st' h fun _ => rfl

end Tracks

theorem Silent.tracks (h : Silent get m f) : Tracks get m m := by
  intro s st st' hst
  obtain ⟨w, hm, hw⟩ := h s st
  obtain ⟨w', hm', hw'⟩ := h s st'
  rw [hm, hm']
  exact .ok _ w w' (hw.trans (hst.trans hw'.symm)) fun _ => hw

namespace Tracks

variable {n n' : Meaning κ σ}

/-- What the state is changed to depends on the part alone. -/
theorem record {part : List κ → σ → σ}
    (h : ∀ text st st', get st = get st' → get (part text st) = get (part text st')) :
    Tracks get (Meaning.record f part) (Meaning.record f part) := by
  intro s st st' hst
  cases hf : f s with
  | accept k =>
      rw [Meaning.record, Meaning.record, hf]
      exact .ok _ _ _ (h _ _ _ hst) fun hv => by cases hv
  | incomplete =>
      rw [Meaning.record, Meaning.record, hf]
      exact .ok _ _ _ hst fun _ => rfl
  | reject =>
      rw [Meaning.record, Meaning.record, hf]
      exact .ok _ _ _ hst fun _ => rfl

theorem seq_aux (h : Tracks get m m') (h' : Tracks get n n')
    (hor : (∃ f, Keeps get m f) ∨ Settles n) : Tracks get (m.seq n) (m'.seq n') := by
  intro s st st' hst
  have hfirst := h s st st' hst
  generalize hx : m s st = x at hfirst
  generalize hx' : m' s st' = x' at hfirst
  cases hfirst with
  | error e =>
      rw [seq_of_error hx, seq_of_error hx']
      exact .error e
  | ok v w w' same rejected =>
      cases v with
      | accept k =>
          have hsecond := h' (s.drop k) w w' same
          generalize hy : n (s.drop k) w = y at hsecond
          generalize hy' : n' (s.drop k) w' = y' at hsecond
          cases hsecond with
          | error e =>
              rw [seq_of_accept hx, seq_of_accept hx', bind_of_error hy, bind_of_error hy']
              exact .error e
          | ok v u u' same' rejected' =>
              rw [seq_ok hx hy, seq_ok hx' hy']
              refine .ok _ _ _ same' fun hv => ?_
              rw [Verdict.advance_eq_reject] at hv
              subst hv
              rcases hor with ⟨f, hkeeps⟩ | hsettles
              · exact (rejected' rfl).trans (hkeeps _ _ _ _ hx).2
              · exact absurd hy (hsettles _ _ _)
      | incomplete =>
          rw [seq_of_incomplete hx, seq_of_incomplete hx']
          exact .ok _ _ _ same fun hv => by cases hv
      | reject =>
          rw [seq_of_reject hx, seq_of_reject hx']
          exact .ok _ _ _ same rejected

/-- A sequence whose first part leaves the part of the state alone. -/
theorem keeps_seq (hm : Keeps get m f) (h : Tracks get m m') (h' : Tracks get n n') :
    Tracks get (m.seq n) (m'.seq n') := h.seq_aux h' (.inl ⟨f, hm⟩)

/-- A sequence whose second part never rejects. -/
theorem seq_settles (h : Tracks get m m') (h' : Tracks get n n') (hn : Settles n) :
    Tracks get (m.seq n) (m'.seq n') := h.seq_aux h' (.inr hn)

/-- Ordered choice, on the left without undoing and on the right with it. -/
theorem choice (h : Tracks get m m') (h' : Tracks get n n') :
    Tracks get (m.alt n) (m'.orElse n') := by
  intro s st st' hst
  have hfirst := h s st st' hst
  generalize hx : m s st = x at hfirst
  generalize hx' : m' s st' = x' at hfirst
  cases hfirst with
  | error e =>
      rw [alt_of_error hx, orElse_of_error hx']
      exact .error e
  | ok v w w' same rejected =>
      cases v with
      | accept k =>
          rw [alt_of_accept hx, orElse_of_ne_reject hx' (by simp)]
          exact .ok _ _ _ same rejected
      | incomplete =>
          rw [alt_of_incomplete hx, orElse_of_ne_reject hx' (by simp)]
          exact .ok _ _ _ same rejected
      | reject =>
          rw [alt_of_reject hx, orElse_of_reject hx']
          have hsecond := h' s w st' ((rejected rfl).trans hst)
          generalize hy : n s w = y at hsecond
          generalize hy' : n' s st' = y' at hsecond
          cases hsecond with
          | error e => exact .error e
          | ok v u u' same' rejected' =>
              exact .ok _ _ _ same' fun hv => (rejected' hv).trans (rejected rfl)

/-- What is done with an accepted text, where there is an argument for it. -/
theorem finish {γ : Type} (h : Tracks get m m') (convert : List κ → Except Fault γ)
    (part : γ → σ → σ)
    (hpart : ∀ c st st', get st = get st' → get (part c st) = get (part c st')) :
    Tracks get (m.finish (fun text st => (convert text).map fun c => part c st) id)
      (m'.finish (fun text st => (convert text).map fun c => part c st) id) := by
  intro s st st' hst
  have hrun := h s st st' hst
  rw [Meaning.finish, Meaning.finish]
  generalize hx : m s st = x at hrun
  generalize hx' : m' s st' = x' at hrun
  cases hrun with
  | error e =>
      rw [bind_of_error hx, bind_of_error hx']
      exact .error e
  | ok v w w' same rejected =>
      rw [bind_of_ok hx, bind_of_ok hx']
      cases v with
      | accept k =>
          simp only
          cases convert (s.take k) with
          | error e => exact .error e
          | ok c => exact .ok _ _ _ (hpart c _ _ same) fun hv => by cases hv
      | incomplete => exact .ok _ _ _ same rejected
      | reject => exact .ok _ _ _ same rejected

theorem loop (h : Tracks get m m') (hm : m.Bounded) (hm' : m'.Bounded) (hsettles : Settles m.loop) :
    Tracks get m.loop m'.loop := by
  intro s
  induction hlen : s.length using Nat.strongRecOn generalizing s with
  | ind len ih =>
      intro st st' hst
      have hfirst := h s st st' hst
      rw [Meaning.loop_eq hm, Meaning.loop_eq hm']
      generalize hx : m s st = x at hfirst
      generalize hx' : m' s st' = x' at hfirst
      cases hfirst with
      | error e =>
          rw [turn, turn, bind_of_error hx, bind_of_error hx']
          exact .error e
      | ok v w w' same rejected =>
          cases v with
          | accept k =>
              cases k with
              | zero =>
                  rw [turn, turn, bind_of_ok hx, bind_of_ok hx']
                  exact .ok _ _ _ same fun hv => by cases hv
              | succ k =>
                  have hle := hm s st _ w hx
                  -- the rest is shorter
                  have hlt : (s.drop (k + 1)).length < len := by
                    rw [List.length_drop]
                    omega
                  have hrest := ih _ hlt _ rfl w w' same
                  rw [turn_of_accept hx (Nat.succ_pos k), turn_of_accept hx' (Nat.succ_pos k)]
                  generalize hy : m.loop (s.drop (k + 1)) w = y at hrest
                  generalize hy' : m'.loop (s.drop (k + 1)) w' = y' at hrest
                  cases hrest with
                  | error e =>
                      rw [bind_of_error hy, bind_of_error hy']
                      exact .error e
                  | ok v u u' same' rejected' =>
                      rw [bind_of_ok hy, bind_of_ok hy']
                      refine .ok _ _ _ same' fun hv => ?_
                      rw [Verdict.advance_eq_reject] at hv
                      exact absurd (hv ▸ hy) (hsettles _ _ _)
          | incomplete =>
              rw [turn, turn, bind_of_ok hx, bind_of_ok hx']
              exact .ok _ _ _ same rejected
          | reject =>
              rw [turn_of_reject hx, turn_of_reject hx']
              exact .ok _ _ _ same fun hv => by cases hv

end Tracks

/-! ### States that a parse leads to -/

/-- A run from a state with `P` leaves one with `Q` where it accepts, and one with `P` where it
rejects. -/
def Leads (P Q : σ → Prop) (m : Meaning κ σ) : Prop :=
  ∀ s st v st', P st → m s st = .ok (v, st') → (∀ n, v = .accept n → Q st') ∧ (v = .reject → P st')

namespace Leads

variable {P Q R : σ → Prop}

theorem mono (h : Leads P Q m) (hQ : ∀ st, Q st → R st) : Leads P R m := by
  intro s st v st' hst hrun
  obtain ⟨haccept, hreject⟩ := h s st v st' hst hrun
  exact ⟨fun n hv => hQ _ (haccept n hv), hreject⟩

/-- A sequence whose first part leads back to `P`. -/
theorem stable_seq (h : Leads P P m) (h' : Leads P Q m') : Leads P Q (m.seq m') := by
  intro s st v st' hst hrun
  rcases seq_cases hrun with ⟨n, st₁, w, hm, hm', rfl⟩ | ⟨hm, hv⟩
  · obtain ⟨haccept, hreject⟩ := h' _ _ _ _ ((h _ _ _ _ hst hm).1 n rfl) hm'
    refine ⟨fun k hk => ?_, fun hk => hreject (Verdict.advance_eq_reject.1 hk)⟩
    obtain ⟨j, rfl, -⟩ := Verdict.advance_eq_accept.1 hk
    exact haccept j rfl
  · exact ⟨fun n hn => absurd hn (hv n), (h _ _ _ _ hst hm).2⟩

/-- A sequence whose second part leads back to `Q` and never rejects. -/
theorem seq_stable (h : Leads P Q m) (h' : Leads Q Q m')
    (hsettles : Settles m') : Leads P Q (m.seq m') := by
  intro s st v st' hst hrun
  rcases seq_cases hrun with ⟨n, st₁, w, hm, hm', rfl⟩ | ⟨hm, hv⟩
  · have hfirst := (h _ _ _ _ hst hm).1 n rfl
    refine ⟨fun k hk => ?_, fun hk => ?_⟩
    · obtain ⟨j, rfl, -⟩ := Verdict.advance_eq_accept.1 hk
      exact (h' _ _ _ _ hfirst hm').1 j rfl
    · rw [Verdict.advance_eq_reject] at hk
      subst hk
      exact absurd hm' (hsettles _ _ _)
  · exact ⟨fun n hn => absurd hn (hv n), (h _ _ _ _ hst hm).2⟩

theorem alt (h : Leads P Q m) (h' : Leads P Q m') : Leads P Q (m.alt m') := by
  intro s st v st' hst hrun
  rcases alt_cases hrun with ⟨hm, hv⟩ | ⟨st₁, hm, hm'⟩
  · exact ⟨(h _ _ _ _ hst hm).1, fun hk => absurd hk hv⟩
  · exact h' _ _ _ _ ((h _ _ _ _ hst hm).2 rfl) hm'

end Leads

/-- What leaves a part of the state alone leads back to what is a property of that part. -/
theorem Keeps.leads {P : σ → Prop} (h : Keeps get m f)
    (hP : ∀ st st', get st' = get st → P st → P st') : Leads P P m := by
  intro s st v st' hst hrun
  have hkept := hP st st' (h s st v st' hrun).2 hst
  exact ⟨fun _ _ => hkept, fun _ => hkept⟩

/-- Every run that does not ask for more leaves a state with `Q`. -/
def Leaves (Q : σ → Prop) (m : Meaning κ σ) : Prop :=
  ∀ s st v st', m s st = .ok (v, st') → v ≠ .incomplete → Q st'

namespace Leaves

variable {Q : σ → Prop}

theorem leads (h : Leaves Q m) : Leads (fun _ => True) Q m := by
  intro s st v st' _ hrun
  refine ⟨fun n hv => h s st v st' hrun ?_, fun _ => trivial⟩
  rw [hv]
  simp

/-- What leads to `Q`, or else something that leaves `Q`. -/
theorem of_alt (h : Leads (fun _ => True) Q m) (h' : Leaves Q m') : Leaves Q (m.alt m') := by
  intro s st v st' hrun hv
  rcases alt_cases hrun with ⟨hm, hne⟩ | ⟨st₁, -, hm'⟩
  · cases v with
    | accept n => exact (h s st _ st' trivial hm).1 n rfl
    | incomplete => exact absurd rfl hv
    | reject => exact absurd rfl hne
  · exact h' s st₁ v st' hm' hv

/-- A second alternative that leads from `Q` back to it. -/
theorem alt_stable (h : Leaves Q m) (h' : Leads Q Q m') : Leaves Q (m.alt m') := by
  intro s st v st' hrun hv
  rcases alt_cases hrun with ⟨hm, -⟩ | ⟨st₁, hm, hm'⟩
  · exact h s st v st' hm hv
  · have hends := h' s st₁ v st' (h s st _ st₁ hm (by simp)) hm'
    cases v with
    | accept n => exact hends.1 n rfl
    | incomplete => exact absurd rfl hv
    | reject => exact hends.2 rfl

/-- A second part that leads from `Q` back to it. -/
theorem seq_stable (h : Leaves Q m) (h' : Leads Q Q m') : Leaves Q (m.seq m') := by
  intro s st v st' hrun hv
  rcases seq_cases hrun with ⟨n, st₁, w, hm, hm', rfl⟩ | ⟨hm, -⟩
  · have hends := h' _ st₁ w st' (h s st _ st₁ hm (by simp)) hm'
    cases w with
    | accept k => exact hends.1 k rfl
    | incomplete => exact absurd rfl hv
    | reject => exact hends.2 rfl
  · exact h s st v st' hm hv

end Leaves

/-! ### Parses that take a text -/

/-- The parse takes `x` where `y` follows, and changes the state from `st` to `st'`. -/
def Takes (m : Meaning κ σ) (x y : List κ) (st st' : σ) : Prop :=
  m (x ++ y) st = .ok (.accept x.length, st')

/-- The parse rejects `y`, and changes the state from `st` to `st'`. -/
def Refuses (m : Meaning κ σ) (y : List κ) (st st' : σ) : Prop := m y st = .ok (.reject, st')

section Takes

variable {x y z : List κ} {st st₁ st' : σ}

theorem Refuses.lift (h : f y = .reject) : Refuses (lift f) y st st := by
  rw [Refuses, lift_apply, h]

theorem Refuses.record {part : List κ → σ → σ} (h : f y = .reject) :
    Refuses (Meaning.record f part) y st st := by
  rw [Refuses, Meaning.record, h]

theorem Refuses.seq_left (h : Refuses m y st st') : Refuses (m.seq m') y st st' := seq_of_reject h

theorem Refuses.alt (h : Refuses m y st st₁) (h' : Refuses m' y st₁ st') :
    Refuses (m.alt m') y st st' := (alt_of_reject h).trans h'

theorem Refuses.finish {accepted : List κ → σ → Except Fault σ} {failed : σ → σ}
    (h : Refuses m y st st') : Refuses (m.finish accepted failed) y st (failed st') := by
  rw [Refuses, Meaning.finish, bind_of_ok h]

theorem Refuses.after {before : σ → σ} (h : Refuses m y (before st) st') :
    Refuses (m.after before) y st st' := h

namespace Takes

theorem lift (h : f.Reads x y) : Takes (Meaning.lift f) x y st st := by
  rw [Takes, lift_apply, h]

theorem record {part : List κ → σ → σ} (h : f.Reads x y) :
    Takes (Meaning.record f part) x y st (part x st) := by
  rw [Takes, Meaning.record, h]
  simp only [h.take_eq]

theorem seq (h : Takes m x (y ++ z) st st₁) (h' : Takes m' y z st₁ st') :
    Takes (m.seq m') (x ++ y) z st st' := by
  rw [Takes] at h h'
  rw [Takes, List.append_assoc, List.length_append]
  refine seq_ok (v := .accept y.length) h ?_
  rwa [List.drop_left]

/-- A part that takes nothing. -/
theorem nil_seq (h : Takes m [] y st st₁) (h' : Takes m' x z st₁ st') (hy : y = x ++ z) :
    Takes (m.seq m') x z st st' := by
  subst hy
  exact seq h h'

/-- A sequence that goes wrong in its second part. -/
theorem seq_refuses (h : Takes m x y st st₁) (h' : Refuses m' y st₁ st') :
    Refuses (m.seq m') (x ++ y) st st' := by
  rw [Takes] at h
  rw [Refuses] at h' ⊢
  refine seq_ok (v := .reject) h ?_
  rwa [List.drop_left]

theorem alt_left (h : Takes m x y st st') : Takes (m.alt m') x y st st' := alt_of_accept h

theorem alt_right (h : Refuses m (x ++ y) st st₁) (h' : Takes m' x y st₁ st') :
    Takes (m.alt m') x y st st' := (alt_of_reject h).trans h'

theorem opt (h : Takes m x y st st') : Takes m.opt x y st st' := h.alt_left

theorem opt_nil (h : Refuses m y st st') : Takes m.opt [] y st st' :=
  alt_right h (lift Recognizer.Reads.eps)

theorem finish {accepted : List κ → σ → Except Fault σ} {failed : σ → σ}
    (h : Takes m x y st st₁) (ha : accepted x st₁ = .ok st') :
    Takes (m.finish accepted failed) x y st st' := by
  rw [Takes] at h
  rw [Takes, Meaning.finish, bind_of_ok h]
  simp only [List.take_left, ha]
  rfl

theorem after {before : σ → σ} (h : Takes m x y (before st) st') :
    Takes (m.after before) x y st st' :=
  h

theorem through {τ : Type} (q : Pointer τ σ) {t : τ} (h : Takes m x y (q.get t) st') :
    Takes (m.through q) x y t (q.set st' t) := by
  rw [Takes] at h
  simp only [Takes, Meaning.through, Exec.through, h]

theorem loop_nil (hm : m.Bounded) (h : Refuses m y st st') : Takes m.loop [] y st st' := by
  rw [Takes, Meaning.loop_eq hm]
  exact turn_of_reject h

theorem loop_cons (hm : m.Bounded) (hx : x ≠ []) (h : Takes m x (y ++ z) st st₁)
    (h' : Takes m.loop y z st₁ st') : Takes m.loop (x ++ y) z st st' := by
  rw [Takes] at h h'
  rw [Takes, Meaning.loop_eq hm, List.append_assoc, turn_of_accept h (List.length_pos_iff.2 hx),
    List.drop_left, bind_of_ok h', List.length_append]
  rfl

/-- A loop takes pieces one after the other, each of them with a change of the state.  The turn that
ends the loop may change the state as well. -/
theorem loop_flatten {ι : Type} {F : List κ → Prop} {text : ι → List κ} {step : ι → σ → σ}
    {last : σ → σ} {items : List ι} (hm : m.Bounded)
    (htake : ∀ i ∈ items, text i ≠ [] ∧ ∀ z st, F z → Takes m (text i) z st (step i st))
    (hF : ∀ i ∈ items, ∀ z, F (text i ++ z)) (hy : F y)
    (hstop : ∀ st, Refuses m y st (last st)) :
    Takes m.loop (items.flatMap text) y st (last (items.foldl (fun st i => step i st) st)) := by
  induction items generalizing st with
  | nil => exact loop_nil hm (hstop st)
  | cons i items ih =>
      obtain ⟨hi, hitake⟩ := htake i List.mem_cons_self
      have hrest : F (items.flatMap text ++ y) := by
        cases items with
        | nil => exact hy
        | cons i' items =>
            rw [List.flatMap_cons, List.append_assoc]
            exact hF i' (List.mem_cons_of_mem _ List.mem_cons_self) _
      rw [List.flatMap_cons, List.foldl_cons]
      exact loop_cons hm hi (hitake _ st hrest)
        (ih (fun i hi => htake i (List.mem_cons_of_mem _ hi))
          fun i hi => hF i (List.mem_cons_of_mem _ hi))

end Takes

end Takes

end Hittop
