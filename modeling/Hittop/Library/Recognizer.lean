/-
**Recognizers**: what a greedy, prioritised parser says about a range.

A recognizer reads a prefix of a list and accepts it, rejects the list, or asks for more of it.
Ordered choice commits to its first alternative as soon as that does not reject, and repetition
takes as much as it can; there is no backtracking but in `starThen`, which gives back the latest
iterations of a repetition one by one.

Main definitions:

* `Verdict`, `Recognizer` — the three answers, and a function to answers that accepts no more than
  there is;
* `Recognizer.seq`, `alt`, `exclude`, `star`, `starThen`, `force` — the combinators;
* `Recognizer.Lenient`, `Recognizer.Commits` — where a recognizer does not reject any more.

Main results:

* `Recognizer.star_eq` — the equation of the star;
* `Recognizer.star_run_alt` — a star of runs;
* `Recognizer.seq_eq_reject_iff`, `Recognizer.Commits.seq` — what decides about a rejection.
-/

import Mathlib.Data.List.Basic
import Mathlib.Tactic.Common

set_option relaxedAutoImplicit false
set_option autoImplicit false

/-- What a recognizer says about a list. -/
inductive Verdict
  /-- The first `n` elements are accepted. -/
  | accept (n : ℕ)
  /-- The answer depends on what follows the list. -/
  | incomplete
  | reject
  deriving DecidableEq, Repr

namespace Verdict

/-- The same answer about a list that begins `k` elements earlier. -/
def advance (k : ℕ) : Verdict → Verdict
  | accept n => accept (k + n)
  | incomplete => incomplete
  | reject => reject

@[simp] theorem advance_accept (k n : ℕ) : (accept n).advance k = accept (k + n) := rfl
@[simp] theorem advance_incomplete (k : ℕ) : incomplete.advance k = incomplete := rfl
@[simp] theorem advance_reject (k : ℕ) : reject.advance k = reject := rfl

@[simp] theorem advance_zero (v : Verdict) : v.advance 0 = v := by cases v <;> simp

@[simp] theorem advance_advance (j k : ℕ) (v : Verdict) :
    (v.advance j).advance k = v.advance (k + j) := by
  cases v <;> simp [Nat.add_assoc]

theorem advance_eq_accept {k m : ℕ} {v : Verdict} :
    v.advance k = accept m ↔ ∃ n, v = accept n ∧ m = k + n := by
  cases v <;> simp [eq_comm]

@[simp] theorem advance_eq_incomplete {k : ℕ} {v : Verdict} :
    v.advance k = incomplete ↔ v = incomplete := by cases v <;> simp

@[simp] theorem advance_eq_reject {k : ℕ} {v : Verdict} :
    v.advance k = reject ↔ v = reject := by cases v <;> simp

end Verdict

/-- A function from lists to verdicts that accepts no more elements than there are. -/
structure Recognizer (α : Type) where
  run : List α → Verdict
  bounded : ∀ s n, run s = .accept n → n ≤ s.length

namespace Recognizer

open Verdict

variable {α : Type}

instance : CoeFun (Recognizer α) fun _ => List α → Verdict := ⟨run⟩

@[ext] theorem ext {f g : Recognizer α} (h : ∀ s, f s = g s) : f = g := by
  cases f
  cases g
  congr
  exact funext h

theorem le_length {f : Recognizer α} {s : List α} {n : ℕ} (h : f s = accept n) : n ≤ s.length :=
  f.bounded s n h

/-! ### Combinators -/

/-- Accepts nothing, always. -/
def eps : Recognizer α where
  run _ := accept 0
  bounded s n h := by cases h; omega

/-- Rejects always. -/
def fail : Recognizer α where
  run _ := reject
  bounded s n h := by cases h

/-- One element with a property. -/
def satisfy (p : α → Bool) : Recognizer α where
  run
    | [] => incomplete
    | a :: _ => if p a then accept 1 else reject
  bounded s n h := by
    cases s with
    | nil => cases h
    | cons a s =>
        by_cases hp : p a = true
        · simp only [hp, if_true, accept.injEq] at h
          simp [← h]
        · simp [hp] at h

/-- `f`, then `g` on the rest. -/
def seq (f g : Recognizer α) : Recognizer α where
  run s :=
    match f s with
    | accept n => (g (s.drop n)).advance n
    | v => v
  bounded s n h := by
    cases hf : f s with
    | accept m =>
        simp only [hf, advance_eq_accept] at h
        obtain ⟨k, hk, rfl⟩ := h
        have h₁ := f.bounded s m hf
        have h₂ := g.bounded _ k hk
        rw [List.length_drop] at h₂
        omega
    | incomplete => simp [hf] at h
    | reject => simp [hf] at h

/-- `f`, or `g` where `f` rejects. -/
def alt (f g : Recognizer α) : Recognizer α where
  run s :=
    match f s with
    | reject => g s
    | v => v
  bounded s n h := by
    cases hf : f s with
    | accept m =>
        simp only [hf] at h
        cases h
        exact f.bounded s _ hf
    | incomplete => simp [hf] at h
    | reject =>
        simp only [hf] at h
        exact g.bounded s n h

/-- `g` where `f` rejects, nothing where it accepts. -/
def exclude (f g : Recognizer α) : Recognizer α where
  run s :=
    match f s with
    | accept _ => reject
    | incomplete => incomplete
    | reject => g s
  bounded s n h := by
    cases hf : f s with
    | accept m => simp [hf] at h
    | incomplete => simp [hf] at h
    | reject =>
        simp only [hf] at h
        exact g.bounded s n h

/-- `f` where it accepts, the whole list where it asks for more. -/
def force (f : Recognizer α) : Recognizer α where
  run s :=
    match f s with
    | accept n => accept n
    | incomplete => accept s.length
    | reject => accept 0
  bounded s n h := by
    cases hf : f s with
    | accept m =>
        simp only [hf] at h
        cases h
        exact f.bounded s _ hf
    | incomplete => simp only [hf, accept.injEq] at h; omega
    | reject => simp only [hf, accept.injEq] at h; omega

/-- At most `k` iterations of the star. -/
def starFrom (f : Recognizer α) : ℕ → List α → Verdict
  | 0, _ => accept 0
  | k + 1, s =>
      match f s with
      | accept 0 => accept 0
      | accept (n + 1) => (starFrom f k (s.drop (n + 1))).advance (n + 1)
      | incomplete => incomplete
      | reject => accept 0

theorem starFrom_le (f : Recognizer α) (k : ℕ) (s : List α) (n : ℕ)
    (h : starFrom f k s = accept n) : n ≤ s.length := by
  induction k generalizing s n with
  | zero => cases h; omega
  | succ k ih =>
      unfold starFrom at h
      split at h
      next => cases h; omega
      next m hm =>
        rw [advance_eq_accept] at h
        obtain ⟨j, hj, rfl⟩ := h
        have h₁ := f.bounded s _ hm
        have h₂ := ih _ j hj
        rw [List.length_drop] at h₂
        omega
      next => cases h
      next => cases h; omega

/-- As many times `f` as possible; an iteration that makes no progress is the last. -/
def star (f : Recognizer α) : Recognizer α where
  run s := starFrom f (s.length + 1) s
  bounded s n h := starFrom_le f _ s n h

/-- The prior positions the star of `f` went through, at most `size` of them, the latest first;
nothing where `f` asks for more. -/
def climbFrom (f : Recognizer α) (size : ℕ) (s : List α) : ℕ → List ℕ → Option (List ℕ)
  | 0, prior => some prior
  | _ + 1, [] => some []
  | k + 1, back :: older =>
      match f (s.drop back) with
      | accept 0 => some (back :: older)
      | accept (n + 1) =>
          climbFrom f size s k (((back + (n + 1)) :: back :: older).take size)
      | incomplete => none
      | reject => some (back :: older)

/-- `g` at the latest prior position where it does not reject. -/
def fallBack (g : Recognizer α) (s : List α) : List ℕ → Verdict
  | [] => reject
  | [back] => (g (s.drop back)).advance back
  | back :: older =>
      match g (s.drop back) with
      | reject => fallBack g s older
      | v => v.advance back

theorem climbFrom_le (f : Recognizer α) (size : ℕ) (s : List α) (k : ℕ) (prior prior' : List ℕ)
    (hprior : ∀ p ∈ prior, p ≤ s.length) (h : climbFrom f size s k prior = some prior') :
    ∀ p ∈ prior', p ≤ s.length := by
  induction k generalizing prior with
  | zero => cases h; exact hprior
  | succ k ih =>
      cases prior with
      | nil => cases h; exact hprior
      | cons back older =>
          simp only [climbFrom] at h
          split at h
          next => cases h; exact hprior
          next n hn =>
            refine ih _ (fun p hp => ?_) h
            have hback := hprior back (by simp)
            have hle := f.bounded _ _ hn
            rw [List.length_drop] at hle
            rcases List.mem_cons.1 (List.mem_of_mem_take hp) with rfl | hp
            · omega
            · exact hprior p hp
          next => cases h
          next => cases h; exact hprior

theorem fallBack_le (g : Recognizer α) (s : List α) (n : ℕ) : ∀ prior : List ℕ,
    (∀ p ∈ prior, p ≤ s.length) → fallBack g s prior = accept n → n ≤ s.length
  | [], _, h => by cases h
  | [back], hprior, h => by
      rw [fallBack, advance_eq_accept] at h
      obtain ⟨m, hm, rfl⟩ := h
      have hback := hprior back (by simp)
      have hle := g.bounded _ _ hm
      rw [List.length_drop] at hle
      omega
  | back :: older :: rest, hprior, h => by
      rw [fallBack] at h
      · split at h
        next => exact fallBack_le g s n (older :: rest)
                  (fun p hp => hprior p (List.mem_cons_of_mem _ hp)) h
        next v hv =>
          obtain ⟨m, hm, rfl⟩ := advance_eq_accept.1 h
          have hback := hprior back (by simp)
          have hle := g.bounded _ _ hm
          rw [List.length_drop] at hle
          omega
      · simp

/-- The star of `f`, then `g`; while `g` rejects, the last iteration of the star is given back, as
long as one of the last `size` positions is left. -/
def starThen (size : ℕ) (f g : Recognizer α) : Recognizer α where
  run s :=
    match climbFrom f size s (s.length + 1) ([0].take size) with
    | none => incomplete
    | some prior => fallBack g s prior
  bounded s n h := by
    cases hclimb : climbFrom f size s (s.length + 1) ([0].take size) with
    | none => simp [hclimb] at h
    | some prior =>
        simp only [hclimb] at h
        refine fallBack_le g s n prior (climbFrom_le f size s _ _ prior (fun p hp => ?_) hclimb) h
        have := List.mem_of_mem_take hp
        simp only [List.mem_singleton] at this
        omega

/-- `f`, where it does not reject. -/
def opt (f : Recognizer α) : Recognizer α := alt f eps

/-- `n` times `f`. -/
def power (f : Recognizer α) : ℕ → Recognizer α
  | 0 => eps
  | n + 1 => seq f (power f n)

/-- Up to `n` times `f`. -/
def upTo (f : Recognizer α) : ℕ → Recognizer α
  | 0 => eps
  | n + 1 => opt (seq f (upTo f n))

/-- A text whose elements have the given values. -/
def text {β : Type} [DecidableEq β] (value : α → β) : List β → Recognizer α
  | [] => eps
  | b :: s => seq (satisfy fun a => decide (value a = b)) (text value s)

/-! ### Equations -/

section Equations

variable {f g : Recognizer α} {s : List α}

@[simp] theorem eps_apply : (eps : Recognizer α) s = accept 0 := rfl

@[simp] theorem fail_apply : (fail : Recognizer α) s = reject := rfl

@[simp] theorem satisfy_nil {p : α → Bool} : satisfy p [] = incomplete := rfl

@[simp] theorem satisfy_cons {p : α → Bool} {a : α} :
    satisfy p (a :: s) = if p a then accept 1 else reject := rfl

theorem seq_apply : seq f g s = match f s with
    | accept n => (g (s.drop n)).advance n
    | v => v := rfl

theorem seq_of_accept {n : ℕ} (h : f s = accept n) :
    seq f g s = (g (s.drop n)).advance n := by
  rw [seq_apply, h]

theorem seq_of_incomplete (h : f s = incomplete) : seq f g s = incomplete := by
  rw [seq_apply, h]

theorem seq_of_reject (h : f s = reject) : seq f g s = reject := by
  rw [seq_apply, h]

theorem seq_eq_incomplete_of_accept {n : ℕ} (h : f s = accept n) :
    seq f g s = incomplete ↔ g (s.drop n) = incomplete := by
  rw [seq_of_accept h, advance_eq_incomplete]

theorem seq_eq_accept {n : ℕ} : seq f g s = accept n ↔
    ∃ a b, f s = accept a ∧ g (s.drop a) = accept b ∧ n = a + b := by
  rw [seq_apply]
  cases f s with
  | accept m => simp [advance_eq_accept]
  | incomplete => simp
  | reject => simp

theorem alt_apply : alt f g s = match f s with
    | reject => g s
    | v => v := rfl

theorem alt_of_reject (h : f s = reject) : alt f g s = g s := by
  rw [alt_apply, h]

theorem alt_of_reject_right (h : g s = reject) : alt f g s = f s := by
  rw [alt_apply, h]
  cases f s <;> rfl

theorem alt_of_ne_reject (h : f s ≠ reject) : alt f g s = f s := by
  rw [alt_apply]
  cases hf : f s <;> simp_all

theorem alt_of_incomplete (h : f s = incomplete) : alt f g s = incomplete := by
  rw [alt_of_ne_reject (by simp [h]), h]

theorem alt_eq_accept {n : ℕ} : alt f g s = accept n ↔
    f s = accept n ∨ f s = reject ∧ g s = accept n := by
  rw [alt_apply]
  cases f s <;> simp

theorem exclude_apply : exclude f g s = match f s with
    | accept _ => reject
    | incomplete => incomplete
    | reject => g s := rfl

theorem exclude_of_reject (h : f s = reject) : exclude f g s = g s := by
  rw [exclude_apply, h]

theorem force_apply : force f s = match f s with
    | accept n => accept n
    | incomplete => accept s.length
    | reject => accept 0 := rfl

@[simp] theorem seq_eps : seq f eps = f := by
  ext s
  rw [seq_apply]
  cases f s <;> rfl

@[simp] theorem eps_seq : seq eps f = f := by
  ext s
  simp [seq_apply]

theorem seq_assoc {h : Recognizer α} : seq (seq f g) h = seq f (seq g h) := by
  ext s
  cases hf : f s with
  | accept n =>
      rw [seq_of_accept (f := f) hf, seq_apply, seq_of_accept hf, seq_apply]
      cases hg : g (s.drop n) <;> simp [List.drop_drop]
  | incomplete => rw [seq_of_incomplete hf, seq_of_incomplete (seq_of_incomplete hf)]
  | reject => rw [seq_of_reject hf, seq_of_reject (seq_of_reject hf)]

@[simp] theorem alt_fail : alt f fail = f := by
  ext s
  rw [alt_apply]
  cases f s <;> rfl

theorem alt_assoc {h : Recognizer α} : alt (alt f g) h = alt f (alt g h) := by
  ext s
  simp only [alt_apply]
  cases f s <;> rfl

@[simp] theorem opt_opt : opt (opt f) = opt f := by
  ext s
  simp only [opt, alt_apply]
  cases f s <;> rfl

/-- A choice between two classes of elements is one class. -/
theorem alt_satisfy {p q : α → Bool} :
    alt (satisfy p) (satisfy q) = satisfy fun a => p a || q a := by
  ext s
  cases s with
  | nil => rfl
  | cons a s => by_cases hp : p a = true <;> simp [alt_apply, hp]

theorem exclude_satisfy {p q : α → Bool} :
    exclude (satisfy p) (satisfy q) = satisfy fun a => !p a && q a := by
  ext s
  cases s with
  | nil => rfl
  | cons a s => by_cases hp : p a = true <;> simp [exclude_apply, hp]

/-- A choice comes before a sequence where what accepts the first alternative is rejected by the
second one. -/
theorem seq_alt {h : Recognizer α} (hfg : ∀ s n, f s = accept n → g s = reject) :
    seq (alt f g) h = alt (seq f h) (seq g h) := by
  ext s
  cases hf : f s with
  | accept n =>
      rw [seq_of_accept (n := n) (by rw [alt_of_ne_reject (by simp [hf]), hf]),
        alt_of_reject_right (seq_of_reject (hfg s n hf)), seq_of_accept hf]
  | incomplete =>
      rw [seq_of_incomplete (alt_of_incomplete hf), alt_of_incomplete (seq_of_incomplete hf)]
  | reject => rw [alt_of_reject (seq_of_reject hf), seq_apply, alt_of_reject hf, seq_apply]

/-- A sequence is not tried that begins with an element of the class before it. -/
theorem alt_satisfy_seq {p q : α → Bool} {f : Recognizer α} (h : ∀ a, q a = true → p a = true) :
    alt (satisfy p) (seq (satisfy q) f) = satisfy p := by
  ext s
  cases s with
  | nil => rfl
  | cons a s =>
      by_cases hp : p a = true
      · simp [alt_apply, hp]
      · have hq : ¬ q a = true := fun hq => hp (h a hq)
        simp [alt_apply, seq_apply, hp, hq]

@[simp] theorem text_singleton {β : Type} [DecidableEq β] {value : α → β} {b : β} :
    text value [b] = satisfy fun a => decide (value a = b) := seq_eps

/-- The star has enough iterations: more of them change nothing. -/
theorem starFrom_eq (f : Recognizer α) {j k : ℕ} {s : List α} (hj : s.length < j)
    (hk : s.length < k) : starFrom f j s = starFrom f k s := by
  induction j generalizing k s with
  | zero => omega
  | succ j ih =>
      obtain ⟨k, rfl⟩ : ∃ i, k = i + 1 := ⟨k - 1, by omega⟩
      unfold starFrom
      split
      next => rfl
      next n hn =>
        have hle := f.bounded s _ hn
        rw [ih (s := s.drop (n + 1)) (k := k)] <;> (rw [List.length_drop]; omega)
      next => rfl
      next => rfl

/-- **The equation of the star.** -/
theorem star_eq (f : Recognizer α) (s : List α) : star f s = match f s with
    | accept 0 => accept 0
    | accept (n + 1) => (star f (s.drop (n + 1))).advance (n + 1)
    | incomplete => incomplete
    | reject => accept 0 := by
  change starFrom f (s.length + 1) s = _
  rw [starFrom]
  cases hf : f s with
  | accept n =>
      cases n with
      | zero => rfl
      | succ n =>
          have hle := f.bounded s _ hf
          refine congrArg (Verdict.advance (n + 1)) (starFrom_eq f ?_ (Nat.lt_succ_self _))
          rw [List.length_drop]
          omega
  | incomplete => rfl
  | reject => rfl

theorem star_of_reject (h : f s = reject) : star f s = accept 0 := by
  rw [star_eq, h]

theorem star_of_incomplete (h : f s = incomplete) : star f s = incomplete := by
  rw [star_eq, h]

theorem star_of_accept {n : ℕ} (h : f s = accept n) (hn : 0 < n) :
    star f s = (star f (s.drop n)).advance n := by
  rw [star_eq, h]
  cases n with
  | zero => omega
  | succ n => rfl

/-- What the loop through prior positions ends in: nothing, or positions. -/
theorem starThen_apply {size : ℕ} : starThen size f g s =
    match climbFrom f size s (s.length + 1) ([0].take size) with
    | none => incomplete
    | some prior => fallBack g s prior := rfl

theorem starThen_of_reject {size : ℕ} (hf : f s = reject) (hg : g s = reject) :
    starThen size f g s = reject := by
  cases size with
  | zero => rfl
  | succ size =>
      have hclimb : climbFrom f (size + 1) s (s.length + 1) ([0].take (size + 1)) = some [0] := by
        simp [climbFrom, hf]
      rw [starThen_apply, hclimb]
      simp [fallBack, hg]

theorem star_ne_reject (f : Recognizer α) (s : List α) : star f s ≠ reject := by
  change starFrom f (s.length + 1) s ≠ reject
  generalize s.length + 1 = k
  induction k generalizing s with
  | zero => simp [starFrom]
  | succ k ih =>
      unfold starFrom
      split <;> simp [ih]

/-- A star ends where there is no further iteration. -/
theorem star_stop {n : ℕ} (h : star f s = accept n) :
    f (s.drop n) = reject ∨ f (s.drop n) = accept 0 := by
  induction hs : s.length using Nat.strongRecOn generalizing s n with
  | ind len ih =>
      rw [star_eq] at h
      cases hf : f s with
      | accept k =>
          cases k with
          | zero =>
              simp only [hf, accept.injEq] at h
              subst h
              exact .inr hf
          | succ k =>
              simp only [hf] at h
              obtain ⟨m, hm, rfl⟩ := advance_eq_accept.1 h
              have hle := le_length hf
              have hlt : (s.drop (k + 1)).length < len := by
                rw [List.length_drop]
                omega
              rw [← List.drop_drop]
              exact ih _ hlt hm rfl
      | incomplete => simp [hf] at h
      | reject =>
          simp only [hf, accept.injEq] at h
          subst h
          exact .inl hf

/-- Nothing is skipped where the skipped parts cannot begin. -/
theorem seq_star_of_reject {h : Recognizer α}
    (hfg : ∀ s n, f s = accept n → g (s.drop n) = reject) :
    seq f (seq (star g) h) = seq f h := by
  ext s
  cases hf : f s with
  | accept n =>
      rw [seq_of_accept hf, seq_of_accept hf, seq_of_accept (star_of_reject (hfg s n hf)),
        List.drop_zero, advance_zero]
  | incomplete => rw [seq_of_incomplete hf, seq_of_incomplete hf]
  | reject => rw [seq_of_reject hf, seq_of_reject hf]

/-- A run of elements of a class may be taken before one of a larger class. -/
theorem seq_star_satisfy {p q : α → Bool} (hpq : ∀ a, p a = true → q a = true) :
    seq (star (satisfy p)) (star (satisfy q)) = star (satisfy q) := by
  ext s
  induction s with
  | nil => rfl
  | cons a s ih =>
      by_cases hp : p a = true
      · have hone {r : α → Bool} (hr : r a = true) :
            star (satisfy r) (a :: s) = (star (satisfy r) s).advance 1 :=
          star_of_accept (n := 1) (by simp [hr]) Nat.one_pos
        rw [hone (hpq a hp), ← ih, seq_apply, seq_apply, hone hp]
        cases star (satisfy p) s with
        | accept n => simp [Nat.add_comm 1 n]
        | incomplete => rfl
        | reject => rfl
      · rw [seq_of_accept (star_of_reject (by simp [hp])), List.drop_zero, advance_zero]

/-- A star that takes whole runs takes the same as one that takes their elements. -/
theorem star_run_alt {p q : α → Bool} :
    star (alt (seq (satisfy p) (star (satisfy p))) (satisfy q)) =
      star (satisfy fun a => p a || q a) := by
  ext s
  induction hs : s.length using Nat.strongRecOn generalizing s with
  | ind len ih =>
      cases s with
      | nil => rfl
      | cons a s =>
          have hlt (n : ℕ) : (s.drop n).length < len := by
            rw [List.length_drop, ← hs, List.length_cons]
            omega
          by_cases hp : p a = true
          · -- the run goes on through `s`, and so does the star behind it
            have hsplit := congrArg (fun f => Recognizer.run f s)
              (seq_star_satisfy (p := p) (q := fun a => p a || q a) fun b hb => by simp [hb])
            have hone : star (satisfy fun a => p a || q a) (a :: s) =
                (star (satisfy fun a => p a || q a) s).advance 1 :=
              star_of_accept (n := 1) (by simp [hp]) Nat.one_pos
            rw [hone]
            cases hrun : star (satisfy p) s with
            | accept n =>
                have hhead : alt (seq (satisfy p) (star (satisfy p))) (satisfy q) (a :: s) =
                    accept (1 + n) := by simp [alt_apply, seq_apply, hp, hrun]
                have hrest : star (satisfy fun a => p a || q a) s =
                    (star (satisfy fun a => p a || q a) (s.drop n)).advance n :=
                  hsplit.symm.trans (seq_of_accept hrun)
                rw [star_of_accept hhead (by omega), Nat.add_comm 1 n, List.drop_succ_cons,
                  ih _ (hlt n) _ rfl, hrest, advance_advance, Nat.add_comm 1 n]
            | incomplete =>
                have hrest : star (satisfy fun a => p a || q a) s = incomplete :=
                  hsplit.symm.trans (seq_of_incomplete hrun)
                rw [star_of_incomplete (by simp [alt_apply, seq_apply, hp, hrun]), hrest]
                rfl
            | reject => exact absurd hrun (star_ne_reject _ _)
          · have hhead : alt (seq (satisfy p) (star (satisfy p))) (satisfy q) (a :: s) =
                satisfy (fun a => p a || q a) (a :: s) := by simp [alt_apply, seq_apply, hp]
            by_cases hq : q a = true
            · have hfirst : satisfy (fun a => p a || q a) (a :: s) = accept 1 := by simp [hq]
              rw [star_of_accept (hhead.trans hfirst) Nat.one_pos,
                star_of_accept hfirst Nat.one_pos, List.drop_succ_cons, ih _ (hlt 0) _ rfl]
            · have hfirst : satisfy (fun a => p a || q a) (a :: s) = reject := by simp [hp, hq]
              rw [star_of_reject (hhead.trans hfirst), star_of_reject hfirst]

end Equations

/-! ### Recognizers that never reject -/

/-- `f` never rejects. -/
def Lenient (f : Recognizer α) : Prop := ∀ s, f s ≠ reject

theorem lenient_eps : Lenient (eps : Recognizer α) := fun _ => by simp

theorem lenient_star (f : Recognizer α) : Lenient (star f) := star_ne_reject f

theorem lenient_alt {f g : Recognizer α} (hg : Lenient g) : Lenient (alt f g) := by
  intro s h
  rw [alt_apply] at h
  cases hf : f s with
  | accept n => simp [hf] at h
  | incomplete => simp [hf] at h
  | reject =>
      simp only [hf] at h
      exact hg s h

theorem lenient_opt (f : Recognizer α) : Lenient (opt f) := lenient_alt lenient_eps

theorem Lenient.seq {f g : Recognizer α} (hf : Lenient f) (hg : Lenient g) :
    Lenient (seq f g) := by
  intro s h
  rw [seq_apply] at h
  cases hfs : f s with
  | accept n =>
      simp only [hfs, advance_eq_reject] at h
      exact hg _ h
  | incomplete => simp [hfs] at h
  | reject => exact hf s hfs

/-- What never rejects settles a choice. -/
theorem alt_of_lenient {f g : Recognizer α} (hf : Lenient f) : alt f g = f := by
  ext s
  exact alt_of_ne_reject (hf s)

/-- What follows decides nothing where it never rejects. -/
theorem seq_eq_reject_iff {f g : Recognizer α} (hg : Lenient g) {s : List α} :
    seq f g s = reject ↔ f s = reject := by
  rw [seq_apply]
  cases f s with
  | accept n => simp [hg (s.drop n)]
  | incomplete => simp
  | reject => simp

/-! ### Texts that are accepted -/

/-- The text that is accepted. -/
def textOf (f : Recognizer α) (s : List α) : Option (List α) :=
  match f s with
  | accept n => some (s.take n)
  | _ => none

/-- Something about the rest of the list, where a prefix of it is accepted. -/
def after {β : Type} (f : Recognizer α) (p : List α → Option β) (s : List α) : Option β :=
  match f s with
  | accept n => p (s.drop n)
  | _ => none

section After

variable {β : Type} {f : Recognizer α} {p : List α → Option β} {s : List α}

theorem after_of_accept {n : ℕ} (h : f s = accept n) : after f p s = p (s.drop n) := by
  rw [after, h]

theorem after_of_reject (h : f s = reject) : after f p s = none := by
  rw [after, h]

theorem after_of_incomplete (h : f s = incomplete) : after f p s = none := by
  rw [after, h]

theorem after_eq_some {b : β} :
    after f p s = some b ↔ ∃ n, f s = accept n ∧ p (s.drop n) = some b := by
  rw [after]
  cases f s <;> simp

theorem textOf_eq_some {x : List α} : textOf f s = some x ↔ ∃ n, f s = accept n ∧ s.take n = x := by
  rw [textOf]
  cases f s <;> simp

theorem after_bind {γ : Type} {q : β → Option γ} :
    after f (fun t => (p t).bind q) s = (after f p s).bind q := by
  rw [after, after]
  cases f s <;> rfl

/-- Where `f` rejects, `p` has nothing. -/
def Commits (f : Recognizer α) (p : List α → Option β) : Prop := ∀ s, f s = reject → p s = none

theorem commits_none (f : Recognizer α) : Commits f fun _ => (none : Option β) := fun _ _ => rfl

theorem commits_textOf (f : Recognizer α) : Commits f (textOf f) := by
  intro s h
  rw [textOf, h]

theorem Lenient.commits {f : Recognizer α} (h : Lenient f) (p : List α → Option β) :
    Commits f p := fun s hs => absurd hs (h s)

/-- What comes after a prefix is there where the rest does not reject. -/
theorem Commits.seq {f g : Recognizer α} (h : Commits g p) : Commits (seq f g) (after f p) := by
  intro s hs
  cases hf : f s with
  | accept n =>
      rw [seq_of_accept hf, advance_eq_reject] at hs
      rw [after_of_accept hf]
      exact h _ hs
  | incomplete => exact after_of_incomplete hf
  | reject => exact after_of_reject hf

theorem Commits.seq_lenient {f g : Recognizer α} (h : Commits f p) (hg : Lenient g) :
    Commits (Recognizer.seq f g) p := fun s hs => h s ((seq_eq_reject_iff hg).1 hs)

theorem Commits.alt {f g : Recognizer α} (h : Commits f p) : Commits (Recognizer.alt f g) p := by
  intro s hs
  refine h s ?_
  by_contra hne
  rw [alt_of_ne_reject hne] at hs
  exact hne hs

end After

/-- A repeated class of elements accepts elements of the class. -/
theorem star_satisfy_mem {p : α → Bool} {s : List α} {n : ℕ} (h : star (satisfy p) s = accept n) :
    ∀ a ∈ s.take n, p a = true := by
  induction s generalizing n with
  | nil =>
      rw [star_of_incomplete satisfy_nil] at h
      cases h
  | cons a s ih =>
      by_cases ha : p a = true
      · rw [star_of_accept (n := 1) (by simp [ha]) Nat.one_pos, advance_eq_accept] at h
        obtain ⟨m, hm, rfl⟩ := h
        intro b hb
        rw [Nat.add_comm, List.take_succ_cons, List.mem_cons] at hb
        rcases hb with rfl | hb
        · exact ha
        · exact ih hm b hb
      · rw [star_of_reject (by simp [ha])] at h
        cases h
        simp

end Recognizer
