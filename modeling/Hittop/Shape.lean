/-
**Properties of all the parts of a rule.**

Many statements about a grammar ask something of every rule that occurs in it: that no part is a
`Force`, that no `Either` is empty.  Such a property is inherited by the rules that the selected
parser of a rule calls, although some of those — the tail of a parameter pack, the expansion of
`AtLeast` — do not occur in the rule themselves.

Main definitions:

* `Hittop.Rule.Each` — every part of a rule has a property;
* `Hittop.Env.calls` — the rules a selected parser calls;
* `Hittop.Hereditary` — the property does not constrain the rules that `special` builds.

Main results:

* `Hittop.Rule.Each.calls` — what holds of the parts of a rule holds of the rules it calls.
-/

import Hittop.Rule

set_option relaxedAutoImplicit false
set_option autoImplicit false

namespace Hittop

variable {ρ φ κ : Type}

namespace Rule

/-- Every part of the rule, the rule included, has the property. -/
def Each (q : Rule ρ φ → Prop) : Rule ρ φ → Prop
  | literal chs => q (literal chs)
  | charFilter f => q (charFilter f)
  | anyChar => q anyChar
  | charClass rules => q (charClass rules) ∧ eachOf rules
  | token get => q (token get)
  | success => q success
  | failure => q failure
  | concat parts => q (concat parts) ∧ eachOf parts
  | either grammars => q (either grammars) ∧ eachOf grammars
  | opt t => q (opt t) ∧ Each q t
  | unless_ r d => q (unless_ r d) ∧ Each q r ∧ Each q d
  | repeat_ g => q (repeat_ g) ∧ Each q g
  | repeatAndThen a b m => q (repeatAndThen a b m) ∧ Each q a ∧ Each q b
  | exactly n g => q (exactly n g) ∧ Each q g
  | atLeast n g => q (atLeast n g) ∧ Each q g
  | atMost n g => q (atMost n g) ∧ Each q g
  | between m n g => q (between m n g) ∧ Each q g
  | inter item delim => q (inter item delim) ∧ Each q item ∧ Each q delim
  | impliedDelim delim parts => q (impliedDelim delim parts) ∧ Each q delim ∧ eachOf parts
  | force g => q (force g) ∧ Each q g
  | trim g => q (trim g) ∧ Each q g
  | forwardRef m => q (forwardRef m)
where
  /-- Every part of every rule of a parameter pack. -/
  eachOf : List (Rule ρ φ) → Prop
    | [] => True
    | g :: gs => Each q g ∧ eachOf gs

@[simp] theorem eachOf_nil {q : Rule ρ φ → Prop} : Each.eachOf q [] := by
  simp [Each.eachOf]

@[simp] theorem eachOf_cons {q : Rule ρ φ → Prop} {g : Rule ρ φ} {gs : List (Rule ρ φ)} :
    Each.eachOf q (g :: gs) ↔ Each q g ∧ Each.eachOf q gs := by
  simp [Each.eachOf]

theorem eachOf_iff {q : Rule ρ φ → Prop} {gs : List (Rule ρ φ)} :
    Each.eachOf q gs ↔ ∀ g ∈ gs, Each q g := by
  induction gs with
  | nil => simp
  | cons g gs ih => simp [ih]

/-- Whether every part of a rule has a property one can test. -/
instance Each.decidable (q : Rule ρ φ → Prop) [DecidablePred q] : DecidablePred (Each q)
  | literal _ | charFilter _ | anyChar | token _ | success | failure | forwardRef _ =>
      inferInstanceAs (Decidable (q _))
  | charClass gs | concat gs | either gs =>
      let _ := ofPack gs
      inferInstanceAs (Decidable (_ ∧ _))
  | opt g | repeat_ g | exactly _ g | atLeast _ g | atMost _ g | between _ _ g | force g | trim g =>
      let _ := Each.decidable q g
      inferInstanceAs (Decidable (_ ∧ _))
  | unless_ a b | repeatAndThen a b _ | inter a b =>
      let _ := Each.decidable q a
      let _ := Each.decidable q b
      inferInstanceAs (Decidable (_ ∧ _ ∧ _))
  | impliedDelim d gs =>
      let _ := Each.decidable q d
      let _ := ofPack gs
      inferInstanceAs (Decidable (_ ∧ _ ∧ _))
where
  /-- The same for a parameter pack. -/
  ofPack : ∀ gs : List (Rule ρ φ), Decidable (Each.eachOf q gs)
    | [] => isTrue eachOf_nil
    | g :: gs =>
        let _ := Each.decidable q g
        let _ := ofPack gs
        decidable_of_iff _ eachOf_cons.symm

theorem Each.self {q : Rule ρ φ → Prop} {g : Rule ρ φ} (h : Each q g) : q g := by
  cases g <;> first | exact h | exact h.1

end Rule

/-- The rules the selected parser calls on the range it is given or on the rest of it. -/
def Env.calls (Γ : Env ρ φ κ) : Special ρ φ → List (Rule ρ φ)
  | .inherits base => [base]
  | .forwardRef m => [Γ.type m]
  | .concat first second => [first, second]
  | .either first second => [first, second]
  | .unless_ r d => [r, d]
  | .repeat_ g => [g]
  | .repeatAndThen repeated rest _ => [repeated, rest]
  | .force g => [g]
  | _ => []

/-- A property of rules that holds of the rules `special` puts together itself. -/
structure Hereditary (q : Rule ρ φ → Prop) : Prop where
  success : q .success
  failure : q .failure
  literal : ∀ chs, q (.literal chs)
  concat : ∀ parts, q (.concat parts)
  either : ∀ g gs, q (.either (g :: gs))
  opt : ∀ g, q (.opt g)
  repeat_ : ∀ g, q (.repeat_ g)
  exactly : ∀ n g, q (.exactly n g)
  atMost : ∀ n g, q (.atMost n g)
  impliedDelim : ∀ d gs, q (.impliedDelim d gs)
  /-- The two ends of a `Trim`, where the property allows one. -/
  trim : ∀ f g, q (.trim g) → q (.charFilter f) ∧ q (.force (.repeat_ (.charFilter f)))

namespace Rule

/-- What holds of the parts of a rule, and of the bodies of the forward references, holds of the
parts of the rules it calls. -/
theorem Each.calls {Γ : Env ρ φ κ} {q : Rule ρ φ → Prop} (hq : Hereditary q)
    (htype : ∀ m, q (.forwardRef m) → Each q (Γ.type m)) {g : Rule ρ φ} (h : Each q g) :
    ∀ g' ∈ Γ.calls (Γ.special g), Each q g' := by
  intro g' hg'
  cases g with
  | literal chs =>
      match chs, hg' with
      | [], hg' => simp [Env.special, Env.calls] at hg'
      | [_], hg' => simp [Env.special, Env.calls] at hg'
      | _ :: _ :: _, hg' =>
          simp only [Env.special, Env.calls, List.mem_cons, List.not_mem_nil, or_false] at hg'
          rcases hg' with rfl | rfl <;> exact hq.literal _
  | charFilter | anyChar | token | success | failure =>
      simp [Env.special, Env.calls] at hg'
  | charClass rules =>
      simp only [Env.special] at hg'
      split at hg' <;> simp [Env.calls] at hg'
  | concat parts =>
      match parts, h, hg' with
      | [], h, hg' => exact List.mem_singleton.1 hg' ▸ hq.success
      | [first], h, hg' => exact List.mem_singleton.1 hg' ▸ (eachOf_cons.1 h.2).1
      | [first, second], h, hg' => exact eachOf_iff.1 h.2 g' hg'
      -- a pack of three or more is called as its head and the pack of the others
      | first :: second :: third :: rest, h, hg' =>
          simp only [Env.special, Env.calls, List.mem_cons, List.not_mem_nil, or_false] at hg'
          rcases hg' with rfl | rfl
          · exact (eachOf_cons.1 h.2).1
          · exact ⟨hq.concat _, (eachOf_cons.1 h.2).2⟩
  | either grammars =>
      match grammars, h, hg' with
      | [], h, hg' => exact List.mem_singleton.1 hg' ▸ hq.failure
      | [first], h, hg' => exact List.mem_singleton.1 hg' ▸ (eachOf_cons.1 h.2).1
      | [first, second], h, hg' => exact eachOf_iff.1 h.2 g' hg'
      | first :: second :: third :: rest, h, hg' =>
          simp only [Env.special, Env.calls, List.mem_cons, List.not_mem_nil, or_false] at hg'
          rcases hg' with rfl | rfl
          · exact (eachOf_cons.1 h.2).1
          · exact ⟨hq.either _ _, (eachOf_cons.1 h.2).2⟩
  | opt t =>
      rw [List.mem_singleton.1 hg']
      exact ⟨hq.either _ _, by simp [h.2, hq.success, Each]⟩
  | unless_ r d | repeatAndThen r d m =>
      simp only [Env.special, Env.calls, List.mem_cons, List.not_mem_nil, or_false] at hg'
      rcases hg' with rfl | rfl
      · exact h.2.1
      · exact h.2.2
  | repeat_ g | force g => exact List.mem_singleton.1 hg' ▸ h.2
  | exactly n g =>
      match n, hg' with
      | 0, hg' => exact List.mem_singleton.1 hg' ▸ hq.success
      | 1, hg' => exact List.mem_singleton.1 hg' ▸ h.2
      | n + 2, hg' =>
          rw [List.mem_singleton.1 hg']
          exact ⟨hq.concat _, by simp [Each, h.2, hq.exactly]⟩
  | atLeast n g =>
      rw [List.mem_singleton.1 hg']
      exact ⟨hq.concat _, by simp [Each, h.2, hq.exactly, hq.repeat_]⟩
  | atMost n g =>
      match n, hg' with
      | 0, hg' => exact List.mem_singleton.1 hg' ▸ hq.success
      | 1, hg' => exact List.mem_singleton.1 hg' ▸ ⟨hq.opt _, h.2⟩
      | n + 2, hg' =>
          rw [List.mem_singleton.1 hg']
          exact ⟨hq.opt _, by simp [Each, h.2, hq.concat, hq.opt, hq.atMost]⟩
  | between m n g =>
      by_cases hle : m ≤ n
      · simp only [Env.special, hle, if_true] at hg'
        rw [List.mem_singleton.1 hg']
        exact ⟨hq.concat _, by simp [Each, h.2, hq.exactly, hq.atMost]⟩
      · simp [Env.special, hle, Env.calls] at hg'
  | inter item delim =>
      rw [List.mem_singleton.1 hg']
      exact ⟨hq.opt _, by simp [Each, h.2.1, h.2.2, hq.concat, hq.repeat_]⟩
  | impliedDelim delim parts =>
      match parts, h, hg' with
      | [], h, hg' => exact List.mem_singleton.1 hg' ▸ hq.success
      | [first], h, hg' => exact List.mem_singleton.1 hg' ▸ (eachOf_cons.1 h.2.2).1
      | first :: second :: rest, h, hg' =>
          have hparts := eachOf_cons.1 h.2.2
          rw [List.mem_singleton.1 hg']
          exact ⟨hq.concat _, by
            simp only [eachOf_cons, Each, eachOf_nil, and_true]
            exact ⟨hparts.1, h.2.1, hq.impliedDelim _ _, h.2.1, eachOf_cons.1 hparts.2⟩⟩
  | trim g =>
      obtain ⟨hspace, hforce⟩ := hq.trim Γ.isspace g h.1
      rw [List.mem_singleton.1 hg']
      exact ⟨hq.concat _, by simp [Env.forceSpaces, Each, h.2, hspace, hforce, hq.repeat_]⟩
  | forwardRef m => exact List.mem_singleton.1 hg' ▸ htype m h

end Rule

end Hittop
