/-
**Recognizers on a list and on its extensions.**

A recognizer that has answered keeps its answer when more elements follow, except that one which
goes on to the end of the list, such as a forced repetition, may find more to accept.  Put together,
such recognizers stay so as long as whatever follows one of them asks for more on the empty list.

Main definitions:

* `Recognizer.Extends` — longer lists have the same answer, up to more elements of a kind at the
  end;
* `Recognizer.Hungry` — asks for more on the empty list.

Main results:

* `Recognizer.Extends.seq`, `Recognizer.Extends.star`, … — the combinators;
* `Recognizer.Extends.seq_stretch` — a forced repetition behind a recognizer;
* `Recognizer.Extends.fix` — guarded recursion.
-/

import Mathlib.Data.List.TakeWhile
import Hittop.Library.Guarded
import Hittop.Library.Reads

set_option relaxedAutoImplicit false
set_option autoImplicit false

namespace Recognizer

open Verdict

variable {α : Type} {p : α → Bool} {f g : Recognizer α} {s t : List α} {n : ℕ}

/-- Longer lists have the same answer, except that more elements with the property `p` may be
accepted where the whole list has been. -/
structure Extends (p : α → Bool) (f : Recognizer α) : Prop where
  rejected : ∀ s t, f s = .reject → f (s ++ t) = .reject
  accepted : ∀ s t n, f s = .accept n → ∃ k, f (s ++ t) = .accept (n + k) ∧
    (n < s.length → k = 0) ∧ ∀ a ∈ t.take k, p a = true

/-- An answer is the answer on every longer list. -/
def Final (f : Recognizer α) : Prop := ∀ s t, f s ≠ incomplete → f (s ++ t) = f s

/-- Asks for more on the empty list. -/
def Hungry (f : Recognizer α) : Prop := f [] = incomplete

theorem hungry_satisfy {q : α → Bool} : Hungry (satisfy q) := rfl

theorem Hungry.seq (h : Hungry f) : Hungry (seq f g) := seq_of_incomplete h

theorem Hungry.alt (h : Hungry f) : Hungry (alt f g) := alt_of_incomplete h

theorem Hungry.star (h : Hungry f) : Hungry (star f) := star_of_incomplete h

theorem Hungry.lt (h : Hungry f) (hs : f s = accept n) : 0 < s.length := by
  cases s with
  | nil =>
      rw [h] at hs
      cases hs
  | cons a s => simp

namespace Extends

/-- Where something is left, nothing more is accepted. -/
theorem accept_of_lt (hf : Extends p f) (h : f s = accept n) (hlt : n < s.length) (t : List α) :
    f (s ++ t) = accept n ∧ (s ++ t).drop n = s.drop n ++ t := by
  obtain ⟨k, hk, hzero, -⟩ := hf.accepted s t n h
  rw [hzero hlt, Nat.add_zero] at hk
  exact ⟨hk, List.drop_append_of_le_length (Nat.le_of_lt hlt)⟩

/-- The part of a longer list that is accepted is that of the list, with more of the kind behind it.
-/
theorem take_append (hf : Extends p f) (h : f s = accept n) (t : List α) :
    ∃ w, (∀ m, f (s ++ t) = accept m → (s ++ t).take m = s.take n ++ w) ∧ ∀ a ∈ w, p a = true := by
  obtain ⟨k, hk, hzero, hmore⟩ := hf.accepted s t n h
  refine ⟨t.take k, fun m hm => ?_, hmore⟩
  rw [hk, accept.injEq] at hm
  subst hm
  rcases Nat.lt_or_ge n s.length with hlt | hge
  · rw [hzero hlt, Nat.add_zero, List.take_append_of_le_length (Nat.le_of_lt hlt), List.take_zero,
      List.append_nil]
  · have hn : n = s.length := Nat.le_antisymm (le_length h) hge
    rw [hn, List.take_length_add_append, List.take_length]

/-- An answer that is final. -/
theorem of_final (h : ∀ s t, f s ≠ incomplete → f (s ++ t) = f s) : Extends p f where
  rejected s t hs := (h s t (by simp [hs])).trans hs
  accepted s t n hs := ⟨0, (h s t (by simp [hs])).trans hs, fun _ => rfl, by simp⟩

theorem pending : Extends p (pending : Recognizer α) := of_final fun _ _ h => absurd rfl h

theorem eps : Extends p (eps : Recognizer α) := of_final fun _ _ _ => rfl

theorem fail : Extends p (fail : Recognizer α) := of_final fun _ _ _ => rfl

theorem satisfy {q : α → Bool} : Extends p (satisfy q) := by
  refine of_final fun s t h => ?_
  cases s with
  | nil => exact absurd rfl h
  | cons a s => rfl

/-- Whatever follows begins where more is asked for at the end. -/
theorem seq (hf : Extends p f) (hg : Extends p g) (hungry : Hungry g) : Extends p (seq f g) where
  rejected s t h := by
    cases hs : f s with
    | reject => exact seq_of_reject (hf.rejected s t hs)
    | incomplete => simp [seq_of_incomplete hs] at h
    | accept n =>
        rw [seq_of_accept hs, advance_eq_reject] at h
        have hlt : n < s.length := by
          by_contra hle
          rw [List.drop_eq_nil_of_le (by omega), hungry] at h
          cases h
        obtain ⟨hf', hdrop⟩ := hf.accept_of_lt hs hlt t
        rw [seq_of_accept hf', hdrop, hg.rejected _ t h, advance_reject]
  accepted s t m h := by
    obtain ⟨a, b, ha, hb, rfl⟩ := seq_eq_accept.1 h
    have hlt : a < s.length := by
      have hpos := hungry.lt hb
      rw [List.length_drop] at hpos
      omega
    obtain ⟨hf', hdrop⟩ := hf.accept_of_lt ha hlt t
    obtain ⟨k, hk, hzero, hmore⟩ := hg.accepted _ t b hb
    refine ⟨k, ?_, fun hend => hzero ?_, hmore⟩
    · rw [seq_of_accept hf', hdrop, hk, advance_accept, Nat.add_assoc]
    · rw [List.length_drop]
      omega

theorem alt (hf : Extends p f) (hg : Extends p g) : Extends p (alt f g) where
  rejected s t h := by
    cases hs : f s with
    | reject =>
        rw [alt_of_reject hs] at h
        rw [alt_of_reject (hf.rejected s t hs), hg.rejected s t h]
    | incomplete => simp [alt_of_incomplete hs] at h
    | accept n => simp [alt_of_ne_reject (f := f) (g := g) (s := s) (by simp [hs]), hs] at h
  accepted s t n h := by
    rcases alt_eq_accept.1 h with h | ⟨hs, h⟩
    · obtain ⟨k, hk, hmore⟩ := hf.accepted s t n h
      exact ⟨k, by rw [alt_of_ne_reject (by simp [hk]), hk], hmore⟩
    · rw [alt_of_reject (hf.rejected s t hs)]
      exact hg.accepted s t n h

theorem opt (hf : Extends p f) : Extends p (opt f) := hf.alt eps

theorem exclude (hf : Extends p f) (hg : Extends p g) : Extends p (exclude f g) where
  rejected s t h := by
    cases hs : f s with
    | reject =>
        rw [exclude_of_reject hs] at h
        rw [exclude_of_reject (hf.rejected s t hs), hg.rejected s t h]
    | incomplete => simp [exclude_apply, hs] at h
    | accept n =>
        obtain ⟨k, hk, -⟩ := hf.accepted s t n hs
        simp [exclude_apply, hk]
  accepted s t n h := by
    cases hs : f s with
    | reject =>
        rw [exclude_of_reject hs] at h
        rw [exclude_of_reject (hf.rejected s t hs)]
        exact hg.accepted s t n h
    | incomplete => simp [exclude_apply, hs] at h
    | accept m => simp [exclude_apply, hs] at h

theorem star (hf : Extends p f) (hungry : Hungry f) : Extends p (star f) where
  rejected s t h := absurd h (star_ne_reject f s)
  accepted s t n h := by
    induction hn : s.length using Nat.strongRecOn generalizing s n with
    | ind N ih =>
        cases hs : f s with
        | reject =>
            rw [star_of_reject hs] at h
            cases h
            exact ⟨0, star_of_reject (hf.rejected s t hs), fun _ => rfl, by simp⟩
        | incomplete =>
            rw [star_of_incomplete hs] at h
            cases h
        | accept m =>
            have hpos := hungry.lt hs
            cases m with
            | zero =>
                obtain ⟨hf', -⟩ := hf.accept_of_lt hs hpos t
                rw [star_eq, hs] at h
                cases h
                exact ⟨0, by rw [star_eq, hf'], fun _ => rfl, by simp⟩
            | succ m =>
                rw [star_of_accept hs (Nat.succ_pos m), advance_eq_accept] at h
                obtain ⟨b, hb, rfl⟩ := h
                -- the next iteration asks for more at the end
                have hlt : m + 1 < s.length := by
                  have hrest := hungry.star.lt hb
                  rw [List.length_drop] at hrest
                  omega
                obtain ⟨hf', hdrop⟩ := hf.accept_of_lt hs hlt t
                have hlength : (s.drop (m + 1)).length < N := by
                  rw [List.length_drop]
                  omega
                obtain ⟨k, hk, hzero, hmore⟩ := ih _ hlength _ b hb rfl
                refine ⟨k, ?_, fun hend => hzero ?_, hmore⟩
                · rw [star_of_accept hf' (Nat.succ_pos m), hdrop, hk, advance_accept,
                    ← Nat.add_assoc]
                · rw [List.length_drop]
                  omega

theorem power (hf : Extends p f) (hungry : Hungry f) : ∀ k, Extends p (power f (k + 1))
  | 0 => by
      rw [Recognizer.power, Recognizer.power, seq_eps]
      exact hf
  | k + 1 => hf.seq (power hf hungry k) hungry.seq

theorem text {β : Type} [DecidableEq β] (value : α → β) : ∀ x : List β, Extends p (text value x)
  | [] => eps
  | [b] => by
      rw [text_singleton]
      exact satisfy
  | _ :: b :: x => satisfy.seq (text value (b :: x)) hungry_satisfy.seq

end Extends

/-! ### Forced repetitions -/

/-- As many elements of a class as there are. -/
def stretch (p : α → Bool) : Recognizer α := force (star (satisfy p))

theorem stretch_apply (s : List α) : stretch p s = accept (s.takeWhile p).length := by
  have hread : Reads (force (star (satisfy p))) (s.takeWhile p) (s.dropWhile p) := by
    refine Reads.force_star_satisfy (fun a ha => List.mem_takeWhile_imp ha) fun a ha => ?_
    have hhead := List.head?_dropWhile_not p s
    rw [Option.mem_def.1 ha] at hhead
    simpa using hhead
  rw [Reads, List.takeWhile_append_dropWhile] at hread
  exact hread

/-- More of the kind in front is accepted too. -/
theorem stretch_append_left {w : List α} (hw : ∀ a ∈ w, p a = true) :
    stretch p (w ++ s) = (stretch p s).advance w.length := by
  rw [stretch_apply, stretch_apply, List.takeWhile_append_of_pos hw, List.length_append,
    advance_accept]

/-- More is accepted at the end of what was accepted in full. -/
theorem stretch_append (h : stretch p s = accept n) (t : List α) :
    ∃ k, stretch p (s ++ t) = accept (n + k) ∧ (n < s.length → k = 0) ∧
      ∀ a ∈ t.take k, p a = true := by
  rw [stretch_apply, accept.injEq] at h
  rw [stretch_apply, List.takeWhile_append]
  by_cases hall : (s.takeWhile p).length = s.length
  · refine ⟨(t.takeWhile p).length, ?_, fun hlt => by omega, fun a ha => ?_⟩
    · rw [if_pos hall, List.length_append]
      congr 1
      omega
    · rw [← List.prefix_iff_eq_take.1 (List.takeWhile_prefix p)] at ha
      exact List.mem_takeWhile_imp ha
  · exact ⟨0, by rw [if_neg hall, h, Nat.add_zero], fun _ => rfl, by simp⟩

namespace Extends

theorem stretch : Extends p (Recognizer.stretch p) where
  rejected s t h := by
    rw [stretch_apply] at h
    cases h
  accepted s t _ h := stretch_append h t

/-- Such a repetition may follow whatever it is that it goes on with. -/
theorem seq_stretch (hf : Extends p f) :
    Extends p (Recognizer.seq f (Recognizer.stretch p)) where
  rejected s t h := by
    have hlenient : Lenient (Recognizer.stretch p) := fun s => by
      rw [stretch_apply]
      simp
    exact seq_of_reject (hf.rejected s t ((seq_eq_reject_iff hlenient).1 h))
  accepted s t m h := by
    obtain ⟨a, b, ha, hb, rfl⟩ := seq_eq_accept.1 h
    obtain ⟨k, hk, hzero, hmore⟩ := hf.accepted s t a ha
    by_cases hlt : a < s.length
    · obtain ⟨hf', hdrop⟩ := hf.accept_of_lt ha hlt t
      obtain ⟨j, hj, hzero', hmore'⟩ := stretch_append hb t
      refine ⟨j, ?_, fun hend => hzero' ?_, hmore'⟩
      · rw [seq_of_accept hf', hdrop, hj, advance_accept, Nat.add_assoc]
      · rw [List.length_drop]
        omega
    · -- Nothing was left: what is accepted now is more of the kind.
      have hle := le_length ha
      have hnil : s.drop a = [] := List.drop_eq_nil_of_le (by omega)
      rw [hnil, stretch_apply, accept.injEq] at hb
      have hdrop : (s ++ t).drop (a + k) = t.drop k := by
        rw [show a = s.length by omega, List.drop_append]
        simp
      refine ⟨k + ((t.drop k).takeWhile p).length, ?_, fun hend => by omega, ?_⟩
      · rw [seq_of_accept hk, hdrop, stretch_apply, advance_accept]
        congr 1
        simp at hb
        omega
      · intro c hc
        rw [List.take_add, List.mem_append] at hc
        rcases hc with hc | hc
        · exact hmore c hc
        · rw [← List.prefix_iff_eq_take.1 (List.takeWhile_prefix p)] at hc
          exact List.mem_takeWhile_imp hc

/-- What is true of every unfolding is true of the solution. -/
theorem fix {F : Recognizer α → Recognizer α} (hF : GuardedBy F)
    (h : ∀ n, Extends p (unfolded F n)) : Extends p (fix F) := by
  have hagree (s t : List α) : Recognizer.fix F s = unfolded F ((s ++ t).length + 1) s ∧
      Recognizer.fix F (s ++ t) = unfolded F ((s ++ t).length + 1) (s ++ t) := by
    constructor
    · refine (unfolded_agree_fix hF s ?_).symm
      rw [List.length_append]
      omega
    · exact (unfolded_agree_fix hF (s ++ t) (Nat.lt_succ_self _)).symm
  constructor
  · intro s t hs
    rw [(hagree s t).1] at hs
    rw [(hagree s t).2]
    exact (h _).rejected s t hs
  · intro s t n hs
    rw [(hagree s t).1] at hs
    rw [(hagree s t).2]
    exact (h _).accepted s t n hs

end Extends

end Recognizer
