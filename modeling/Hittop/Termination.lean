/-
**Why a parse ends**, although rules refer to themselves.

`Parser<G>` calls other parsers on the range it is given or on what is left of it.  Each call is on
a shorter range, or on the same range with a rule that has less weight: the weight of a sequence
stops at the first part that cannot succeed without a character, so that a reference behind a
bracket weighs nothing.  The calls of a parse are therefore well-founded, and the loops end because
a pass that consumes nothing is their last.

Main definitions:

* `Hittop.Iterates` — the positions a loop goes on from;
* `Hittop.Env.Calls` — the calls a parser makes;
* `Hittop.Rule.consumes`, `Hittop.Rule.weight` — rules that read a character, and the weight;
* `Hittop.Env.Grounded` — the bodies of the references are no heavier than the references.

Main results:

* `Hittop.Env.settles_of_calls` — a parser ends if the parsers it calls do;
* `Hittop.Env.Grounded.calls_decrease` — each call is on less;
* `Hittop.Env.Grounded.terminates` — every parse ends;
* `Hittop.recursion_terminates` — so do those of JSON values and of comments.
-/

import Hittop.Http.Comments
import Hittop.Repetition

set_option relaxedAutoImplicit false
set_option autoImplicit false

namespace Hittop

open Exec

variable {ρ φ κ σ : Type}

/-! ### The calls of a parser -/

/-- A loop has gone through `n` passes and stands at position `q`.  A pass without progress is the
last one, so that the loop does not go on from it. -/
inductive Iterates (P : List κ → ParseResult → Prop) (s : List κ) : ℕ → ℕ → Prop
  | start : Iterates P s 0 0
  | next {n q k : ℕ} : Iterates P s n q → P (s.drop q) (.success k) → k ≠ 0 →
      Iterates P s (n + 1) (q + k)

/-- The parser that `Parse<G>` runs. -/
def Env.entry (Γ : Env ρ φ κ) (g : Rule ρ φ) : Special ρ φ := Γ.special (Γ.optimized g)

/-- The parsers a parser calls, each with the range it is called on. -/
inductive Env.Calls (Γ : Env ρ φ κ) : Special ρ φ × List κ → Special ρ φ × List κ → Prop
  | inherits {base : Rule ρ φ} {s : List κ} : Calls Γ (.inherits base, s) (Γ.special base, s)
  | forwardRef {m : ρ} {s : List κ} : Calls Γ (.forwardRef m, s) (Γ.special (Γ.type m), s)
  /-- The entry of a lookup table is computed from a range of one character. -/
  | table {rules : List (Rule ρ φ)} {g : Rule ρ φ} {c : κ} {s : List κ} :
      g ∈ rules → Calls Γ (.charClass rules, c :: s) (Γ.special g, [c])
  | first {a b : Rule ρ φ} {s : List κ} : Calls Γ (.concat a b, s) (Γ.entry a, s)
  | second {a b : Rule ρ φ} {s : List κ} {n : ℕ} :
      Parses Γ a s (.success n) → Calls Γ (.concat a b, s) (Γ.entry b, s.drop n)
  | preferred {a b : Rule ρ φ} {s : List κ} : Calls Γ (.either a b, s) (Γ.entry a, s)
  | alternative {a b : Rule ρ φ} {s : List κ} {r : ParseResult} :
      Parses Γ a s r → r.HardFailure → Calls Γ (.either a b, s) (Γ.entry b, s)
  | reject {a b : Rule ρ φ} {s : List κ} : Calls Γ (.unless_ a b, s) (Γ.entry a, s)
  | default {a b : Rule ρ φ} {s : List κ} {r : ParseResult} :
      Parses Γ a s r → r.HardFailure → Calls Γ (.unless_ a b, s) (Γ.entry b, s)
  | pass {a : Rule ρ φ} {s : List κ} {n q : ℕ} :
      Iterates (Parses Γ a) s n q → Calls Γ (.repeat_ a, s) (Γ.entry a, s.drop q)
  | repeated {a b : Rule ρ φ} {s : List κ} {n q size : ℕ} :
      Iterates (Parses Γ a) s n q → Calls Γ (.repeatAndThen a b size, s) (Γ.entry a, s.drop q)
  | rest {a b : Rule ρ φ} {s : List κ} {n q size : ℕ} :
      Iterates (Parses Γ a) s n q → Calls Γ (.repeatAndThen a b size, s) (Γ.entry b, s.drop q)
  | force {a : Rule ρ φ} {s : List κ} : Calls Γ (.force a, s) (Γ.entry a, s)

/-! ### Positions of a loop -/

theorem Iterates.bounds {P : List κ → ParseResult → Prop}
    (hP : ∀ t r, P t r → r.pos ≤ t.length) {s : List κ} {n q : ℕ} (h : Iterates P s n q) :
    n ≤ q ∧ q ≤ s.length := by
  induction h with
  | start => exact ⟨Nat.le_refl 0, Nat.zero_le _⟩
  | next _ hpass hk ih =>
      have hle := hP _ _ hpass
      rw [ParseResult.success_pos, List.length_drop] at hle
      omega

theorem parses_pos_le {Γ : Env ρ φ κ} {g : Rule ρ φ} {t : List κ} {r : ParseResult}
    (h : Parses Γ g t r) : r.pos ≤ t.length := h.placed.le

/-- What a loop goes on from after its first pass is shorter than what it was given. -/
theorem Iterates.shorter {Γ : Env ρ φ κ} {a : Rule ρ φ} {s : List κ} {n q : ℕ}
    (h : Iterates (Parses Γ a) s n q) : (s.drop q).length < s.length ∨ s.drop q = s := by
  have hbounds := h.bounds fun _ _ => parses_pos_le
  rcases Nat.eq_zero_or_pos q with rfl | hq
  · exact .inr List.drop_zero
  · rw [List.length_drop]
    omega

/-! ### A parser ends if the parsers it calls do -/

/-- The run does not go on for ever. -/
def Ends {α : Type} (x : Exec Unit α) : Prop := x () ≠ .error .outOfFuel

theorem Ends.pure {α : Type} (a : α) : Ends (Pure.pure a : Exec Unit α) := by
  simp [Ends]

theorem Ends.fault {α : Type} {e : Fault} (h : e ≠ .outOfFuel) :
    Ends (Exec.fault e : Exec Unit α) := by
  simpa [Ends] using h

theorem Ends.bind {α β : Type} {x : Exec Unit α} {f : α → Exec Unit β} (hx : Ends x)
    (hf : ∀ a, x () = .ok (a, ()) → Ends (f a)) : Ends (x >>= f) := by
  unfold Ends
  cases hrun : x () with
  | error e =>
      rw [bind_of_error hrun]
      rw [Ends, hrun] at hx
      simpa using hx
  | ok p =>
      rw [bind_of_ok hrun]
      exact hf p.1 hrun

theorem Ends.ite {α : Type} {p : Prop} [Decidable p] {x y : Exec Unit α} (hx : p → Ends x)
    (hy : ¬p → Ends y) : Ends (if p then x else y) := by
  by_cases hp : p
  · simpa [hp] using hx hp
  · simpa [hp] using hy hp

section Loops

variable {f : List κ → Exec Unit ParseResult} {s : List κ}
  (hplaced : ∀ t r, Returns (f t) r → r.pos ≤ t.length)
  (hf : ∀ n q, Iterates (ReturnsOn f) s n q → Ends (f (s.drop q)))
include hplaced hf

/-- The loop of `Repeat` ends: each pass it goes on from has shortened what is left. -/
theorem repeats_ends {n q : ℕ} (h : Iterates (ReturnsOn f) s n q) :
    Ends (repeats f (s.drop q)) := by
  induction hm : s.length - q using Nat.strongRecOn generalizing n q with
  | ind m ih =>
      rw [repeats_eq]
      refine (hf n q h).bind fun r hr => Ends.ite (fun hok => ?_) fun _ => ?_
      · refine Ends.ite (fun _ => Ends.pure _) fun hpos => ?_
        have hnext : Iterates (ReturnsOn f) s (n + 1) (q + r.pos) :=
          .next h (ParseResult.eq_success hok ▸ hr) hpos
        have hbounds := hnext.bounds hplaced
        rw [List.drop_drop]
        exact (ih _ (by omega) hnext rfl).bind fun _ _ => Ends.pure _
      · exact Ends.ite (fun _ => Ends.pure _) fun _ => Ends.pure _

/-- The first loop of `RepeatAndThen` ends, with positions it has been at. -/
theorem climbs_ends (size : ℕ) (prior : List ℕ)
    (h : ∀ q ∈ prior, ∃ n, Iterates (ReturnsOn f) s n q) :
    Ends (climbs f size s prior) ∧
      ∀ prior', climbs f size s prior () = .ok (.inr prior', ()) →
        ∀ q ∈ prior', ∃ n, Iterates (ReturnsOn f) s n q := by
  induction hm : s.length + 1 - prior.headD (s.length + 1) using Nat.strongRecOn
    generalizing prior with
  | ind m ih =>
      cases prior with
      | nil =>
          rw [climbs_nil]
          exact ⟨Ends.fault (by simp), fun prior hprior => by cases hprior⟩
      | cons back older =>
          obtain ⟨n, hback⟩ := h back List.mem_cons_self
          rw [List.headD_cons] at hm
          -- what the loop does after a pass that has made progress
          have hrec {r : ParseResult} (hr : Returns (f (s.drop back)) r) (hok : r.ok = true)
              (hpos : r.pos ≠ 0) :
              Ends (climbs f size s (((back + r.pos) :: back :: older).take size)) ∧
                ∀ prior', climbs f size s (((back + r.pos) :: back :: older).take size) () =
                    .ok (.inr prior', ()) → ∀ q ∈ prior', ∃ n, Iterates (ReturnsOn f) s n q := by
            have hnext : Iterates (ReturnsOn f) s (n + 1) (back + r.pos) :=
              .next hback (ParseResult.eq_success hok ▸ hr) hpos
            have hbounds := hnext.bounds hplaced
            refine ih _ ?_ _ (fun q hq => ?_) rfl
            · cases size with
              | zero =>
                  rw [List.take_zero, List.headD_nil]
                  omega
              | succ size =>
                  rw [List.take_succ_cons, List.headD_cons]
                  omega
            · rcases List.mem_cons.1 (List.mem_of_mem_take hq) with rfl | hq
              · exact ⟨_, hnext⟩
              · exact h q hq
          rw [climbs_cons]
          refine ⟨(hf n back hback).bind fun r hr => Ends.ite (fun hok => ?_) fun _ => ?_,
            fun prior' hprior => ?_⟩
          · exact Ends.ite (fun _ => Ends.pure _) fun hpos => (hrec hr hok hpos).1
          · exact Ends.ite (fun _ => Ends.pure _) fun _ => Ends.pure _
          · obtain ⟨r, ⟨⟩, hr, hrest⟩ := bind_ok_iff.1 hprior
            by_cases hok : r.ok = true
            · by_cases hpos : r.pos = 0
              · rw [if_pos hok, if_pos hpos] at hrest
                cases hrest
                exact h
              · rw [if_pos hok, if_neg hpos] at hrest
                exact (hrec hr hok hpos).2 prior' hrest
            · rw [if_neg hok] at hrest
              by_cases hinc : r.error = .incomplete
              · rw [if_pos hinc] at hrest
                cases hrest
              · rw [if_neg hinc] at hrest
                cases hrest
                exact h

end Loops

theorem fallBack_ends {f : List κ → Exec Unit ParseResult} {s : List κ} : ∀ prior : List ℕ,
    (∀ q ∈ prior, Ends (f (s.drop q))) → Ends (fallBack f s prior)
  | [], _ => Ends.fault (by simp)
  | [back], h => (h back List.mem_cons_self).bind fun _ _ => Ends.pure _
  | back :: older :: rest, h => (h back List.mem_cons_self).bind fun _ _ =>
      Ends.ite (fun _ => Ends.pure _) fun _ => Ends.ite (fun _ => Ends.pure _) fun _ =>
        fallBack_ends (older :: rest) fun q hq => h q (List.mem_cons_of_mem _ hq)

theorem charClassTester_ends {p : Rule ρ φ → List κ → Exec Unit ParseResult} {c : κ}
    {rules : List (Rule ρ φ)} (h : ∀ g ∈ rules, Ends (p g [c])) :
    Ends (charClassTester p c rules) := by
  induction rules with
  | nil => exact Ends.pure _
  | cons g rules ih =>
      exact (h g List.mem_cons_self).bind fun _ _ => Ends.ite (fun _ => Ends.pure _)
        fun _ => ih fun g' hg' => h g' (List.mem_cons_of_mem _ hg')

/-- The call returns or faults. -/
def Env.Settles (Γ : Env ρ φ κ) (x : Special ρ φ × List κ) : Prop :=
  Ends (Γ.operatorOutcome (parserOutcome Γ (noVisitors ρ φ κ) none)
    (outcome Γ (noVisitors ρ φ κ) none) (parserOutcome Γ (noVisitors ρ φ κ) none) x.1 x.2)

section Settles

variable {Γ : Env ρ φ κ}

theorem Env.settles_special {g : Rule ρ φ} {s : List κ} :
    Γ.Settles (Γ.special g, s) ↔ Ends (parserOutcome Γ (noVisitors ρ φ κ) none g s) := by
  rw [parserOutcome_eq]
  rfl

theorem Env.settles_entry {g : Rule ρ φ} {s : List κ} :
    Γ.Settles (Γ.entry g, s) ↔ Ends (outcome Γ (noVisitors ρ φ κ) none g s) := by
  rw [outcome_none]
  exact Env.settles_special

/-- **A parser ends if the parsers it calls do.** -/
theorem Env.settles_of_calls {x : Special ρ φ × List κ} (h : ∀ y, Γ.Calls x y → Γ.Settles y) :
    Γ.Settles x := by
  obtain ⟨sp, s⟩ := x
  have hentry {g : Rule ρ φ} {t : List κ} (hcall : Γ.Calls (sp, s) (Γ.entry g, t)) :
      Ends (outcome Γ (noVisitors ρ φ κ) none g t) := Env.settles_entry.1 (h _ hcall)
  have hspecial {g : Rule ρ φ} {t : List κ} (hcall : Γ.Calls (sp, s) (Γ.special g, t)) :
      Ends (parserOutcome Γ (noVisitors ρ φ κ) none g t) := Env.settles_special.1 (h _ hcall)
  have hparses (g : Rule ρ φ) :
      Parses Γ g = ReturnsOn (outcome Γ (noVisitors ρ φ κ) none g) := by
    funext t r
    exact propext parses_iff
  have hplaced {g : Rule ρ φ} (t : List κ) (r : ParseResult)
      (hr : Returns (outcome Γ (noVisitors ρ φ κ) none g t) r) : r.pos ≤ t.length :=
    parses_pos_le (parses_iff.2 hr)
  cases sp with
  | inherits base => exact hspecial .inherits
  | forwardRef m => exact hspecial .forwardRef
  | success | failure | token => exact Ends.pure _
  | anyChar => cases s <;> exact Ends.pure _
  | literal | charFilter =>
      cases s with
      | nil => exact Ends.pure _
      | cons c s => exact Ends.ite (fun _ => Ends.pure _) fun _ => Ends.pure _
  | charClass rules =>
      cases s with
      | nil => exact Ends.pure _
      | cons c s =>
          refine Ends.ite (fun _ => ?_) fun _ => Ends.fault (by simp)
          refine (charClassTester_ends fun g hg => hspecial (.table hg)).bind fun _ _ => ?_
          exact Ends.ite (fun _ => Ends.pure _) fun _ => Ends.pure _
  | concat a b =>
      refine (hentry .first).bind fun r hr => Ends.ite (fun hok => ?_) fun _ => Ends.pure _
      have ha : Parses Γ a s (.success r.pos) := ParseResult.eq_success hok ▸ parses_iff.2 hr
      exact (hentry (.second ha)).bind fun _ _ => Ends.pure _
  | either a b =>
      refine (hentry .preferred).bind fun r hr => Ends.ite (fun _ => Ends.pure _) fun hfail => ?_
      exact hentry (.alternative (parses_iff.2 hr) (by
        simpa [ParseResult.HardFailure] using hfail))
  | unless_ a b =>
      refine (hentry .reject).bind fun r hr => Ends.ite (fun _ => Ends.pure _) fun hinc => ?_
      refine Ends.ite (fun _ => Ends.pure _) fun hok => ?_
      exact hentry (.default (parses_iff.2 hr) ⟨by simpa using hok, hinc⟩)
  | repeat_ a =>
      refine repeats_ends hplaced (fun n q hq => ?_) (n := 0) (q := 0) .start
      exact hentry (.pass (hparses a ▸ hq))
  | repeatAndThen a b size =>
      have hends (n q : ℕ) (hq : Iterates (ReturnsOn (outcome Γ (noVisitors ρ φ κ) none a)) s n q) :
          Ends (outcome Γ (noVisitors ρ φ κ) none a (s.drop q)) :=
        hentry (.repeated (hparses a ▸ hq))
      obtain ⟨hclimb, hprior⟩ := climbs_ends hplaced hends size ([0].take size)
        fun q hq => by
          obtain rfl := List.mem_singleton.1 (List.mem_of_mem_take hq)
          exact ⟨0, .start⟩
      refine Ends.bind hclimb fun out hout => ?_
      cases out with
      | inl r => exact Ends.pure _
      | inr prior =>
          refine fallBack_ends prior fun q hq => ?_
          obtain ⟨n, hn⟩ := hprior prior hout q hq
          exact hentry (.rest (hparses a ▸ hn))
  | force a => exact (hentry .force).bind fun _ _ => Ends.pure _
  | undefined => exact Ends.fault (by simp)

end Settles

/-! ### Rules that read a character -/

/-- The rule does not succeed without a character, where `reads` says the same of the references. -/
def Rule.consumes (reads : ρ → Bool) : Rule ρ φ → Bool
  | .literal _ | .charFilter _ | .anyChar | .charClass _ | .failure => true
  | .token get => decide (get ≠ [])
  | .concat parts => some parts
  | .either grammars => all grammars
  | .unless_ _ d => consumes reads d
  | .repeatAndThen _ rest _ => consumes reads rest
  | .exactly n g | .atLeast n g | .between n _ g => decide (n ≠ 0) && consumes reads g
  | .impliedDelim _ parts => some parts
  | .trim g => consumes reads g
  | .forwardRef m => reads m
  | .success | .opt _ | .repeat_ _ | .atMost _ _ | .inter _ _ | .force _ => false
where
  /-- One of a parameter pack does. -/
  some : List (Rule ρ φ) → Bool
    | [] => false
    | g :: gs => consumes reads g || some gs
  /-- All of a parameter pack do. -/
  all : List (Rule ρ φ) → Bool
    | [] => true
    | g :: gs => consumes reads g && all gs

/-- The same of a parser. -/
def Special.consumes (reads : ρ → Bool) : Special ρ φ → Bool
  | .inherits base => base.consumes reads
  | .forwardRef m => reads m
  | .token get => decide (get ≠ [])
  | .concat a b => a.consumes reads || b.consumes reads
  | .either a b => a.consumes reads && b.consumes reads
  | .unless_ _ b => b.consumes reads
  | .repeatAndThen _ b _ => b.consumes reads
  | .success | .repeat_ _ | .force _ => false
  | .failure | .anyChar | .literal _ | .charFilter _ | .charClass _ | .undefined => true

section Consumes

variable {reads : ρ → Bool} {Γ : Env ρ φ κ}

theorem consumes_special {g : Rule ρ φ} (h : g.consumes reads = true) :
    (Γ.special g).consumes reads = true := by
  cases g with
  | literal chs =>
      rcases chs with _ | ⟨ch, _ | ⟨ch', rest⟩⟩
      · rfl
      · rfl
      · simp [Env.special, Special.consumes, Rule.consumes]
  | charClass rules =>
      rw [Env.special]
      split <;> rfl
  | concat parts =>
      rcases parts with _ | ⟨first, _ | ⟨second, _ | ⟨third, rest⟩⟩⟩
      · simp [Rule.consumes, Rule.consumes.some] at h
      all_goals simpa [Env.special, Special.consumes, Rule.consumes, Rule.consumes.some] using h
  | either gs =>
      rcases gs with _ | ⟨first, _ | ⟨second, _ | ⟨third, rest⟩⟩⟩
      · rfl
      all_goals simpa [Env.special, Special.consumes, Rule.consumes, Rule.consumes.all] using h
  | exactly n g =>
      rcases n with _ | _ | n
      · simp [Rule.consumes] at h
      · simpa [Env.special, Special.consumes, Rule.consumes] using h
      · simpa [Env.special, Special.consumes, Rule.consumes, Rule.consumes.some] using h
  | atLeast n g =>
      simp only [Rule.consumes, Bool.and_eq_true, decide_eq_true_eq] at h
      simp [Env.special, Special.consumes, Rule.consumes, Rule.consumes.some, h]
  | between m n g =>
      simp only [Rule.consumes, Bool.and_eq_true, decide_eq_true_eq] at h
      rw [Env.special]
      split
      · simp [Special.consumes, Rule.consumes, Rule.consumes.some, h]
      · rfl
  | impliedDelim d parts =>
      rcases parts with _ | ⟨first, _ | ⟨second, rest⟩⟩
      · simp [Rule.consumes, Rule.consumes.some] at h
      · simpa [Env.special, Special.consumes, Rule.consumes, Rule.consumes.some] using h
      · simp only [Rule.consumes, Rule.consumes.some, Bool.or_eq_true] at h
        simp only [Env.special, Special.consumes, Rule.consumes, Rule.consumes.some,
          Bool.or_eq_true]
        tauto
  | trim g =>
      simp only [Rule.consumes] at h
      simp [Env.special, Special.consumes, Rule.consumes, Rule.consumes.some, h]
  | charFilter | anyChar | token | failure | unless_ | repeatAndThen | forwardRef => exact h
  | success | opt | repeat_ | atMost | inter | force => cases h

theorem consumes_optimized {g : Rule ρ φ} (h : g.consumes reads = true) :
    (Γ.optimized g).consumes reads = true := by
  cases g with
  | either gs =>
      cases gs with
      | nil => rfl
      | cons first rest =>
          rw [Env.optimized]
          split
          · rfl
          · simpa [Rule.consumes, Rule.consumes.all] using h
  | _ => exact h

/-- Where the parser succeeds, it has read a character. -/
def Advances (p : List κ → Exec σ ParseResult) : Prop :=
  ∀ s, Ensures (p s) fun r => r.ok = true → r.pos ≠ 0

theorem advances_fallBack {p : List κ → Exec σ ParseResult} (hp : Advances p) (s : List κ) :
    ∀ prior : List ℕ, Ensures (fallBack p s prior) fun r => r.ok = true → r.pos ≠ 0 := by
  have hback {r : ParseResult} (hr : r.ok = true → r.pos ≠ 0) (back : ℕ) :
      (r.advance back).ok = true → (r.advance back).pos ≠ 0 := by
    intro hok hpos
    rw [ParseResult.advance_pos] at hpos
    exact hr hok (by omega)
  intro prior
  induction prior with
  | nil => exact Ensures.fault _
  | cons back older ih =>
      cases older with
      | nil => exact (hp _).bind fun r hr => Ensures.pure (hback hr back)
      | cons next older =>
          exact (hp _).bind fun r hr => Ensures.ite (fun _ => Ensures.pure (hback hr back))
            fun _ => Ensures.ite (fun _ => Ensures.pure (hback hr back)) fun _ => ih

/-- The first loop of `RepeatAndThen` returns no success. -/
theorem climb_inl_not_ok (p : List κ → Exec σ ParseResult) (size : ℕ) (s : List κ) (k : ℕ)
    (prior : List ℕ) :
    Ensures (climb p size s k prior) fun out => ∀ r, out = .inl r → r.ok = false := by
  induction k generalizing prior with
  | zero => exact Ensures.fault _
  | succ k ih =>
      cases prior with
      | nil => exact Ensures.fault _
      | cons back older =>
          refine (Ensures.true _).bind fun r _ => Ensures.ite (fun _ => ?_) fun hok => ?_
          · exact Ensures.ite (fun _ => Ensures.pure (by simp)) fun _ => ih _
          · refine Ensures.ite (fun _ => Ensures.pure ?_) fun _ => Ensures.pure (by simp)
            rintro _ ⟨⟩
            simpa using hok

/-- `operator()` reads a character if the parsers it calls do. -/
theorem Env.operatorCall_advances {i p t : Rule ρ φ → List κ → Exec σ ParseResult}
    (htype : ∀ m, reads m = true → (Γ.type m).consumes reads = true)
    (hi : ∀ g, g.consumes reads = true → Advances (i g))
    (hp : ∀ g, g.consumes reads = true → Advances (p g)) (k : ℕ) {sp : Special ρ φ}
    (h : sp.consumes reads = true) : Advances (Γ.operatorCall i p t k sp) := by
  intro s
  cases sp with
  | inherits base => exact hi _ h _
  | forwardRef m => exact hi _ (htype m h) _
  | success | repeat_ | force => cases h
  | failure => exact Ensures.pure (by simp)
  | undefined => exact Ensures.fault _
  | anyChar => cases s <;> exact Ensures.pure (by simp)
  | literal | charFilter =>
      cases s with
      | nil => exact Ensures.pure (by simp)
      | cons c s => exact Ensures.ite (fun _ => Ensures.pure (by simp)) fun _ =>
          Ensures.pure (by simp)
  | charClass rules =>
      cases s with
      | nil => exact Ensures.pure (by simp)
      | cons c s =>
          refine Ensures.ite (fun _ => (Ensures.true _).bind fun _ _ => ?_) fun _ =>
            Ensures.fault _
          exact Ensures.ite (fun _ => Ensures.pure (by simp)) fun _ => Ensures.pure (by simp)
  | token get =>
      refine Ensures.pure fun hok => ?_
      have hne : get ≠ [] := of_decide_eq_true h
      have hlen := List.length_pos_iff.2 hne
      revert hok
      unfold parseToken
      simp only
      split_ifs
      · simp
      · rw [ParseResult.success_pos]
        omega
      · simp
  | concat a b =>
      refine (Ensures.bind (P := fun r => (r.ok = true → r.pos ≠ 0) ∨ b.consumes reads = true)
        (fun st r st' hr => ?_) fun r hr => Ensures.ite (fun hok => ?_) fun hok => ?_)
      · rcases Bool.or_eq_true_iff.1 h with ha | hb
        · exact .inl (hp a ha s st r st' hr)
        · exact .inr hb
      · rcases hr with hr | hb
        · refine (Ensures.true _).bind fun r' _ => Ensures.pure fun _ hpos => ?_
          rw [ParseResult.advance_pos] at hpos
          exact hr hok (by omega)
        · refine (hp b hb _).bind fun r' hr' => Ensures.pure fun hok' hpos => ?_
          rw [ParseResult.advance_pos] at hpos
          exact hr' hok' (by omega)
      · exact Ensures.pure fun hok' => absurd hok' hok
  | either a b =>
      obtain ⟨ha, hb⟩ := Bool.and_eq_true_iff.1 h
      exact (hp a ha s).bind fun r hr => Ensures.ite (fun _ => Ensures.pure hr) fun _ => hp b hb s
  | unless_ a b =>
      refine (Ensures.true _).bind fun r _ => Ensures.ite (fun hinc => ?_) fun _ =>
        Ensures.ite (fun _ => Ensures.pure (by simp)) fun _ => hp b h s
      exact Ensures.pure fun hok => by simp [ParseResult.ok, hinc] at hok
  | repeatAndThen a b size =>
      refine Ensures.bind (P := fun out => ∀ r, out = .inl r → r.ok = false) ?_ fun out hout => ?_
      · exact climb_inl_not_ok (p a) size s k _
      · cases out with
        | inl r =>
            exact Ensures.pure fun hok => by simp [hout r rfl] at hok
        | inr prior => exact advances_fallBack (hp b h) s prior

/-- **A parse that succeeds has read a character**, where the rule says so. -/
theorem parse_parser_advances {ν : Type} (V : Visitors ρ φ κ ν σ)
    (htype : ∀ m, reads m = true → (Γ.type m).consumes reads = true) (n : ℕ) :
    ∀ g, g.consumes reads = true →
      Advances (parse Γ V n none g) ∧ Advances (parser Γ V n none g) := by
  induction n with
  | zero => exact fun _ _ => ⟨fun _ => Ensures.fault _, fun _ => Ensures.fault _⟩
  | succ n ih =>
      refine fun g hg => ⟨(ih _ (consumes_optimized hg)).2, ?_⟩
      exact Env.operatorCall_advances htype (fun g hg => (ih g hg).2) (fun g hg => (ih g hg).1) n
        (consumes_special hg)

theorem Parses.pos_ne_zero (htype : ∀ m, reads m = true → (Γ.type m).consumes reads = true)
    {g : Rule ρ φ} (hg : g.consumes reads = true) {s : List κ} {k : ℕ}
    (h : Parses Γ g s (.success k)) : k ≠ 0 := by
  obtain ⟨n, hn⟩ := h
  exact (parse_parser_advances (noVisitors ρ φ κ) htype n g hg).1 s () _ () hn rfl

end Consumes

/-! ### The weight of a rule -/

/-- How many calls deep a rule goes on the range it is given: a sequence weighs what its parts
weigh, up to the first one that consumes a character.  `refs` are the weights of the references. -/
def Rule.weight (reads : ρ → Bool) (refs : ρ → ℕ) : Rule ρ φ → ℕ
  | .literal chs => if chs.length ≤ 1 then 1 else 2
  | .charFilter _ | .anyChar | .token _ | .success | .failure => 1
  | .charClass rules => oneOf rules
  | .concat parts => leading parts
  | .either grammars => oneOf grammars
  | .opt t => weight reads refs t + 6
  | .unless_ r d => max (weight reads refs r) (weight reads refs d) + 1
  | .repeat_ g | .force g => weight reads refs g + 1
  | .repeatAndThen a b _ => max (weight reads refs a) (weight reads refs b) + 1
  | .exactly n g => weight reads refs g + 3 * n + 3
  | .atLeast n g => weight reads refs g + 3 * n + 9
  | .atMost n g => weight reads refs g + 15 * n + 9
  | .between m n g => weight reads refs g + 3 * m + 15 * n + 20
  | .inter item delim => weight reads refs item + weight reads refs delim + 20
  | .impliedDelim delim parts => oneOf parts + 4 * parts.length + weight reads refs delim + 9
  | .trim g => weight reads refs g + 10
  | .forwardRef m => refs m + 1
where
  /-- The parts of a sequence that may be reached without a character. -/
  leading : List (Rule ρ φ) → ℕ
    | [] => 2
    | g :: gs => max (weight reads refs g) (if g.consumes reads then 0 else leading gs) + 1
  /-- One of a parameter pack. -/
  oneOf : List (Rule ρ φ) → ℕ
    | [] => 2
    | g :: gs => max (weight reads refs g) (oneOf gs) + 1

/-- The same of a parser. -/
def Special.weight (reads : ρ → Bool) (refs : ρ → ℕ) : Special ρ φ → ℕ
  | .inherits base => base.weight reads refs + 1
  | .forwardRef m => refs m + 1
  | .charClass rules => (Rule.charClass rules).weight reads refs
  | .concat a b =>
      max (a.weight reads refs) (if a.consumes reads then 0 else b.weight reads refs) + 1
  | .either a b | .unless_ a b | .repeatAndThen a b _ =>
      max (a.weight reads refs) (b.weight reads refs) + 1
  | .repeat_ a | .force a => a.weight reads refs + 1
  | .success | .failure | .anyChar | .literal _ | .charFilter _ | .token _ | .undefined => 1

section Weight

variable {reads : ρ → Bool} {refs : ρ → ℕ} {Γ : Env ρ φ κ}

theorem Rule.weight_pos (g : Rule ρ φ) : 0 < g.weight reads refs := by
  cases g with
  | literal chs =>
      rw [Rule.weight]
      split_ifs <;> omega
  | charClass gs | either gs => cases gs <;> simp [Rule.weight, Rule.weight.oneOf]
  | concat gs => cases gs <;> simp [Rule.weight, Rule.weight.leading]
  | _ => simp [Rule.weight]

theorem weight_lt_oneOf {g : Rule ρ φ} {gs : List (Rule ρ φ)} (h : g ∈ gs) :
    g.weight reads refs < Rule.weight.oneOf reads refs gs := by
  induction gs with
  | nil => cases h
  | cons a gs ih =>
      rw [Rule.weight.oneOf]
      rcases List.mem_cons.1 h with rfl | h
      · omega
      · have := ih h
        omega

theorem weight_special (g : Rule ρ φ) :
    (Γ.special g).weight reads refs ≤ g.weight reads refs := by
  cases g with
  | literal chs =>
      rcases chs with _ | ⟨ch, _ | ⟨ch', rest⟩⟩ <;>
        simp [Env.special, Special.weight, Rule.weight, Rule.consumes]
  | charClass rules =>
      rw [Env.special]
      split
      · exact Nat.le_refl _
      · exact Rule.weight_pos (.charClass rules)
  | concat parts =>
      rcases parts with _ | ⟨first, _ | ⟨second, _ | ⟨third, rest⟩⟩⟩
      all_goals
        simp only [Env.special, Special.weight, Rule.weight, Rule.weight.leading]
        first | omega | (split_ifs <;> omega)
  | either gs =>
      rcases gs with _ | ⟨first, _ | ⟨second, _ | ⟨third, rest⟩⟩⟩
      all_goals
        simp only [Env.special, Special.weight, Rule.weight, Rule.weight.oneOf]
        omega
  | opt t =>
      simp only [Env.special, Special.weight, Rule.weight, Rule.weight.oneOf]
      omega
  | exactly n g =>
      rcases n with _ | _ | n
      all_goals
        simp only [Env.special, Special.weight, Rule.weight, Rule.weight.leading]
        first | omega | (split_ifs <;> omega)
  | atLeast n g =>
      simp only [Env.special, Special.weight, Rule.weight, Rule.weight.leading]
      split_ifs <;> omega
  | atMost n g =>
      rcases n with _ | _ | n
      all_goals
        simp only [Env.special, Special.weight, Rule.weight, Rule.weight.leading]
        first | omega | (split_ifs <;> omega)
  | between m n g =>
      rw [Env.special]
      split
      · simp only [Special.weight, Rule.weight, Rule.weight.leading]
        split_ifs <;> omega
      · simp [Special.weight, Rule.weight]
  | inter item delim =>
      simp only [Env.special, Special.weight, Rule.weight, Rule.weight.leading]
      split_ifs <;> omega
  | impliedDelim d parts =>
      rcases parts with _ | ⟨first, _ | ⟨second, rest⟩⟩
      all_goals
        simp only [Env.special, Special.weight, Rule.weight, Rule.weight.leading,
          Rule.weight.oneOf, List.length_cons, List.length_nil]
        first | omega | (split_ifs <;> omega)
  | trim g =>
      simp only [Env.special, Special.weight, Rule.weight, Rule.weight.leading, Env.forceSpaces]
      split_ifs <;> omega
  | _ => simp [Env.special, Special.weight, Rule.weight]

theorem weight_entry (g : Rule ρ φ) : (Γ.entry g).weight reads refs ≤ g.weight reads refs := by
  cases g with
  | either gs =>
      cases gs with
      | nil => exact weight_special _
      | cons first rest =>
          rw [Env.entry, Env.optimized]
          split
          · exact weight_special (.charClass (first :: rest))
          · exact Nat.le_refl _
  | _ => exact weight_special _

/-- A call is on a shorter range, or it is on the same range and weighs less. -/
def Special.Less (reads : ρ → Bool) (refs : ρ → ℕ) (y x : Special ρ φ × List κ) : Prop :=
  y.2.length < x.2.length ∨
    y.2.length = x.2.length ∧ y.1.weight reads refs < x.1.weight reads refs

/-- The bodies of the references are no heavier than the references. -/
structure Env.Grounded (Γ : Env ρ φ κ) (reads : ρ → Bool) (refs : ρ → ℕ) : Prop where
  reads_type : ∀ m, reads m = true → (Γ.type m).consumes reads = true
  weight_type : ∀ m, (Γ.type m).weight reads refs ≤ refs m

namespace Env.Grounded

variable (hΓ : Γ.Grounded reads refs)
include hΓ

/-- **Each call is on less.** -/
theorem calls_decrease {x y : Special ρ φ × List κ} (h : Γ.Calls x y) :
    Special.Less reads refs y x := by
  have hentry (g : Rule ρ φ) : (Γ.entry g).weight reads refs ≤ g.weight reads refs :=
    weight_entry g
  have hspecial (g : Rule ρ φ) : (Γ.special g).weight reads refs ≤ g.weight reads refs :=
    weight_special g
  -- on the same range only the weights count
  have hsame {sp sp' : Special ρ φ} {s : List κ}
      (hlt : sp'.weight reads refs < sp.weight reads refs) :
      Special.Less reads refs (sp', s) (sp, s) := .inr ⟨rfl, hlt⟩
  have hdrop {sp sp' : Special ρ φ} {a : Rule ρ φ} {s : List κ} {n q : ℕ}
      (hiter : Iterates (Parses Γ a) s n q)
      (hlt : sp'.weight reads refs < sp.weight reads refs) :
      Special.Less reads refs (sp', s.drop q) (sp, s) := by
    rcases hiter.shorter with hshort | heq
    · exact .inl hshort
    · exact .inr ⟨congrArg List.length heq, hlt⟩
  cases h with
  | inherits => exact hsame (Nat.lt_succ_of_le (hspecial _))
  | @forwardRef m _ =>
      exact hsame (Nat.lt_succ_of_le (Nat.le_trans (hspecial _) (hΓ.weight_type m)))
  | @table rules g c s hg =>
      have hlt : (Γ.special g).weight reads refs < (Special.charClass rules).weight reads refs :=
        Nat.lt_of_le_of_lt (hspecial g) (weight_lt_oneOf hg)
      cases s with
      | nil => exact hsame hlt
      | cons _ _ => exact .inl (by simp)
  | @first a b s | @preferred a b s | @reject a b s =>
      exact hsame (Nat.lt_succ_of_le (Nat.le_trans (hentry a) (Nat.le_max_left _ _)))
  | @second a b s n ha =>
      have hle := parses_pos_le ha
      rw [ParseResult.success_pos] at hle
      rcases Nat.eq_zero_or_pos n with rfl | hn
      · have hreads : ¬ a.consumes reads = true := fun hreads =>
          ha.pos_ne_zero hΓ.reads_type hreads rfl
        refine hsame (Nat.lt_succ_of_le (Nat.le_trans (hentry b) ?_))
        rw [if_neg hreads]
        exact Nat.le_max_right _ _
      · have hshort : (s.drop n).length < s.length := by
          rw [List.length_drop]
          omega
        exact .inl hshort
  | @alternative a b s r _ _ | @default a b s r _ _ =>
      exact hsame (Nat.lt_succ_of_le (Nat.le_trans (hentry b) (Nat.le_max_right _ _)))
  | @pass a s n q hiter => exact hdrop hiter (Nat.lt_succ_of_le (hentry a))
  | @repeated a b s n q size hiter =>
      exact hdrop hiter (Nat.lt_succ_of_le (Nat.le_trans (hentry a) (Nat.le_max_left _ _)))
  | @rest a b s n q size hiter =>
      exact hdrop hiter (Nat.lt_succ_of_le (Nat.le_trans (hentry b) (Nat.le_max_right _ _)))
  | @force a s => exact hsame (Nat.lt_succ_of_le (hentry a))

/-- **The calls of a parse are well-founded.** -/
theorem wellFounded : WellFounded fun y x => Γ.Calls x y := by
  refine Subrelation.wf (fun {y x} h => ?_) (InvImage.wf (fun x : Special ρ φ × List κ =>
    (x.2.length, x.1.weight reads refs)) (Prod.lex Nat.lt_wfRel Nat.lt_wfRel).wf)
  exact Prod.lex_def.2 (hΓ.calls_decrease h)

theorem settles (x : Special ρ φ × List κ) : Γ.Settles x :=
  hΓ.wellFounded.induction x fun _ ih => Env.settles_of_calls ih

/-- **Every parse ends.** -/
theorem terminates (g : Rule ρ φ) (s : List κ) :
    ∃ n, parse Γ (noVisitors ρ φ κ) n none g s () ≠ .error .outOfFuel := by
  by_contra hnone
  have hall : ∀ n, parse Γ (noVisitors ρ φ κ) n none g s () = .error .outOfFuel := by
    simpa using hnone
  exact Env.settles_entry.1 (hΓ.settles (Γ.entry g, s))
    ((parse_chain Γ _ none g s).limit_eq ⟨0, fun n _ => hall n⟩)

theorem transGen_decrease {x y : Special ρ φ × List κ} (h : Relation.TransGen Γ.Calls x y) :
    Special.Less reads refs y x := by
  induction h with
  | single hcall => exact hΓ.calls_decrease hcall
  | tail _ hcall ih =>
      have := hΓ.calls_decrease hcall
      unfold Special.Less at ih this ⊢
      omega

/-- A parser that is called again by itself is called on a shorter range. -/
theorem reentry {sp : Special ρ φ} {s s' : List κ}
    (h : Relation.TransGen Γ.Calls (sp, s) (sp, s')) : s'.length < s.length := by
  rcases hΓ.transGen_decrease h with hlt | ⟨-, hlt⟩
  · exact hlt
  · exact absurd hlt (Nat.lt_irrefl _)

end Env.Grounded

end Weight

/-! ### The grammars -/

/-- The loop of `Repeat` has enough with one pass more than there are characters. -/
theorem repeatLoop_ends {f : List κ → Exec Unit ParseResult}
    (hplaced : ∀ t r, Returns (f t) r → r.pos ≤ t.length) (hf : ∀ t, Ends (f t)) {k : ℕ}
    {s : List κ} (hk : s.length < k) : Ends (repeatLoop f k s) := by
  induction k generalizing s with
  | zero => omega
  | succ k ih =>
      refine (hf s).bind fun r hr => Ends.ite (fun _ => ?_) fun _ => ?_
      · refine Ends.ite (fun _ => Ends.pure _) fun hpos => (ih ?_).bind fun _ _ => Ends.pure _
        have hle := hplaced s r hr
        rw [List.length_drop]
        omega
      · exact Ends.ite (fun _ => Ends.pure _) fun _ => Ends.pure _

/-- How heavy a reference is: four times what it refers to, and the rules around that. -/
def Name.weight (m : Name) : ℕ := 100 * 4 ^ m.level

theorem Name.weight_type (m : Name) :
    m.type.weight (fun _ => false) Name.weight ≤ m.weight := by
  cases m <;> decide

/-- A reference in the grammars either stands behind a character or refers further down. -/
theorem grounded_environment (toInt : κ → ℤ) (inTable : ℤ → Bool) :
    (environment toInt inTable).Grounded (fun _ => false) Name.weight where
  reads_type m h := by cases h
  weight_type := Name.weight_type

/-- **Recursive grammars terminate.**  Every parse of a JSON value and of a comment ends; a
reference that is entered again is entered on a shorter range; each pass that a loop goes on from
has consumed a character, so that one pass more than there are characters is enough, whatever is
repeated; and the calls are well-founded. -/
theorem recursion_terminates (toInt : κ → ℤ) :
    (∀ g ∈ [Json.Grammar.Value, Http.Grammar.comment], ∀ s : List κ,
      (∃ n, parse (reading toInt) (noVisitors Name Cctype κ) n none g s () ≠ .error .outOfFuel) ∧
        (InLookup toInt → ∃ r, Parses (reading toInt) g s r)) ∧
      (∀ (m : Name) (s s' : List κ),
        Relation.TransGen (reading toInt).Calls (.forwardRef m, s) (.forwardRef m, s') →
          s'.length < s.length) ∧
      (∀ (g : Grammar) (s : List κ),
        (∀ n q, Iterates (Parses (reading toInt) g) s n q → n ≤ q ∧ q ≤ s.length) ∧
          repeatLoop (outcome (reading toInt) (noVisitors Name Cctype κ) none g) (s.length + 1) s ()
            ≠ .error .outOfFuel) ∧
      WellFounded fun y x => (reading toInt).Calls x y := by
  have hground := grounded_environment toInt inLookup
  refine ⟨fun g hg s => ⟨hground.terminates g s, fun hlookup => ?_⟩,
    fun m s s' h => hground.reentry h, fun g s => ⟨fun n q h => ?_, ?_⟩, hground.wellFounded⟩
  · rcases List.mem_pair.1 hg with rfl | rfl
    · obtain ⟨r, hr, -⟩ := Json.exists_parses_value hlookup s
      exact ⟨r, hr⟩
    · obtain ⟨r, hr, -⟩ := Http.exists_parses_comment hlookup s
      exact ⟨r, hr⟩
  · exact h.bounds fun _ _ => parses_pos_le
  · exact repeatLoop_ends (fun t r hr => parses_pos_le (parses_iff.2 hr))
      (fun t => Env.settles_entry.1 (hground.settles _)) (Nat.lt_succ_self _)

/-- In `(())x`, the comment inside is entered behind the first parenthesis. -/
theorem recursion_terminates_nested :
    (∃ r, Parses (reading octet) Http.Grammar.comment (bytes "(())x") r) ∧
      (bytes "())x").length < (bytes "(())x").length := by
  have h := recursion_terminates octet
  refine ⟨(h.1 Http.Grammar.comment (by simp) (bytes "(())x")).2 octet_inLookup,
    h.2.1 .comment_t _ _ ?_⟩
  have hopen : Parses (reading octet) (.literal [ch '(']) (bytes "(())x") (.success 1) :=
    ⟨9, by decide⟩
  have htext : Parses (reading octet) Http.Grammar.ctext (bytes "())x") ⟨1, .failedCondition⟩ :=
    ⟨9, by decide⟩
  have hpair : Parses (reading octet) Http.Grammar.quoted_pair (bytes "())x") ⟨0, .badChar⟩ :=
    ⟨9, by decide⟩
  -- the sequence, its rest, the loop, and the alternatives before the comment
  exact .tail (.tail (.tail (.tail (.tail (.tail (.single .forwardRef) (.second hopen)) .first)
    (.pass .start)) (.alternative htext (by decide))) (.alternative hpair (by decide))) .preferred

end Hittop
