/-
**Grammar rules and the parser each of them selects.**

A grammar of the parser library is a C++ type: an expression built from `Literal`, `CharFilter`,
`Concat`, `Either`, `Repeat` and the other combinators under `hittop/parser`.  The type carries no
data, so a rule is exactly its syntax tree, and two rules are the same type when the trees are
equal — which is what a visitor is dispatched on.  The only nominal part is `ForwardRef<M>`, whose
body is `M::type`.

Partial specialisation of `Parser` is a function of the tree.  `Env.special` is that function: it
says which `Parser<G>` a rule `G` selects, either a class with an `operator()` of its own or one
that inherits from the parser of another rule.

Main definitions:

* `Hittop.ParseError`, `Hittop.ParseResult` — the canonical error space and a parse result;
* `Hittop.Rule` — grammar rules;
* `Hittop.Rule.isSingleCharRule` — the trait `IsSingleCharRule`;
* `Hittop.Env` — what a grammar is compiled against: the bodies of the forward references, the
  `<cctype>` functions, the conversion of a character to `int` and the extent of a lookup table;
* `Hittop.Env.special` — the specialisation of `Parser` selected for a rule;
* `Hittop.Env.optimized` — the rule whose `Parser` is the `OptimizedParser` of a rule.
-/

import Mathlib.Data.Int.Notation
import Mathlib.Data.List.Basic
import Mathlib.Tactic.Common

set_option relaxedAutoImplicit false
set_option autoImplicit false

namespace Hittop

/-! ### Results -/

/-- The canonical error space for parse results. -/
inductive ParseError
  | none
  | incomplete
  | badChar
  | failedCondition
  | unknown
  deriving DecidableEq, Repr

/-- A parse result.  The iterator is kept as its distance from the beginning of the range. -/
structure ParseResult where
  /-- The distance of the returned iterator from the beginning of the range. -/
  pos : ℕ
  error : ParseError
  deriving DecidableEq, Repr

namespace ParseResult

/-- The implicit constructor: success at a position. -/
def success (pos : ℕ) : ParseResult := ⟨pos, .none⟩

/-- Whether the parse succeeded. -/
def ok (r : ParseResult) : Bool := decide (r.error = .none)

/-- The same result, for a range that begins `k` characters earlier. -/
def advance (k : ℕ) (r : ParseResult) : ParseResult := ⟨k + r.pos, r.error⟩

@[simp] theorem success_pos (p : ℕ) : (success p).pos = p := rfl
@[simp] theorem success_error (p : ℕ) : (success p).error = .none := rfl
@[simp] theorem success_ok (p : ℕ) : (success p).ok = true := rfl
@[simp] theorem ok_mk (p : ℕ) (e : ParseError) :
    (ParseResult.mk p e).ok = decide (e = .none) := rfl
@[simp] theorem advance_pos (k : ℕ) (r : ParseResult) : (r.advance k).pos = k + r.pos := rfl
@[simp] theorem advance_error (k : ℕ) (r : ParseResult) : (r.advance k).error = r.error := rfl
@[simp] theorem advance_ok (k : ℕ) (r : ParseResult) : (r.advance k).ok = r.ok := rfl
@[simp] theorem advance_zero (r : ParseResult) : r.advance 0 = r := by simp [advance]
@[simp] theorem advance_advance (j k : ℕ) (r : ParseResult) :
    (r.advance j).advance k = r.advance (k + j) := by simp [advance, Nat.add_assoc]
@[simp] theorem advance_success (k p : ℕ) : (success p).advance k = success (k + p) := rfl

theorem not_ok_of_incomplete {r : ParseResult} (h : r.error = .incomplete) : r.ok = false := by
  simp [ok, h]

theorem eq_success {r : ParseResult} (h : r.ok = true) : r = success r.pos := by
  cases r; simp_all [success, ok]

end ParseResult

/-! ### Rules -/

/-- Grammar rules: `ρ` names the metafunctions of the forward references, `φ` the functions a
`CharFilter` may use.  Characters appear as the `int` values they convert to. -/
inductive Rule (ρ φ : Type) where
  | literal (chs : List ℤ)
  | charFilter (f : φ)
  | anyChar
  | charClass (rules : List (Rule ρ φ))
  | token (get : List ℤ)
  | success
  | failure
  | concat (parts : List (Rule ρ φ))
  | either (grammars : List (Rule ρ φ))
  | opt (t : Rule ρ φ)
  | unless_ (rejectGrammar defaultGrammar : Rule ρ φ)
  | repeat_ (grammar : Rule ρ φ)
  | repeatAndThen (repeated rest : Rule ρ φ) (backtrackMemorySize : ℕ)
  | exactly (count : ℕ) (grammar : Rule ρ φ)
  | atLeast (count : ℕ) (grammar : Rule ρ φ)
  | atMost (count : ℕ) (grammar : Rule ρ φ)
  | between (minCount maxCount : ℕ) (grammar : Rule ρ φ)
  | inter (item delimiter : Rule ρ φ)
  | impliedDelim (delim : Rule ρ φ) (parts : List (Rule ρ φ))
  | force (grammar : Rule ρ φ)
  | trim (grammar : Rule ρ φ)
  | forwardRef (m : ρ)

namespace Rule

variable {ρ φ : Type}

/-- Whether two rules are the same type. -/
def same [DecidableEq ρ] [DecidableEq φ] : Rule ρ φ → Rule ρ φ → Bool
  | literal a, literal b => decide (a = b)
  | charFilter f, charFilter g => decide (f = g)
  | anyChar, anyChar => true
  | charClass a, charClass b => sameAll a b
  | token a, token b => decide (a = b)
  | success, success => true
  | failure, failure => true
  | concat a, concat b => sameAll a b
  | either a, either b => sameAll a b
  | opt a, opt b => same a b
  | unless_ a a', unless_ b b' => same a b && same a' b'
  | repeat_ a, repeat_ b => same a b
  | repeatAndThen a a' m, repeatAndThen b b' n => same a b && same a' b' && decide (m = n)
  | exactly m a, exactly n b => decide (m = n) && same a b
  | atLeast m a, atLeast n b => decide (m = n) && same a b
  | atMost m a, atMost n b => decide (m = n) && same a b
  | between m m' a, between n n' b => decide (m = n) && decide (m' = n') && same a b
  | inter a a', inter b b' => same a b && same a' b'
  | impliedDelim d a, impliedDelim e b => same d e && sameAll a b
  | force a, force b => same a b
  | trim a, trim b => same a b
  | forwardRef m, forwardRef n => decide (m = n)
  | _, _ => false
where
  /-- The same question about two parameter packs. -/
  sameAll : List (Rule ρ φ) → List (Rule ρ φ) → Bool
    | [], [] => true
    | a :: as, b :: bs => same a b && sameAll as bs
    | _, _ => false

mutual

theorem eq_of_same [DecidableEq ρ] [DecidableEq φ] :
    ∀ a b : Rule ρ φ, same a b = true → a = b
  | literal a, b, h => by cases b <;> simp_all [same]
  | charFilter f, b, h => by cases b <;> simp_all [same]
  | anyChar, b, h => by cases b <;> simp_all [same]
  | charClass a, b, h => by
      cases b with
      | charClass b => rw [eq_of_sameAll a b (by simpa [same] using h)]
      | _ => simp [same] at h
  | token a, b, h => by cases b <;> simp_all [same]
  | success, b, h => by cases b <;> simp_all [same]
  | failure, b, h => by cases b <;> simp_all [same]
  | concat a, b, h => by
      cases b with
      | concat b => rw [eq_of_sameAll a b (by simpa [same] using h)]
      | _ => simp [same] at h
  | either a, b, h => by
      cases b with
      | either b => rw [eq_of_sameAll a b (by simpa [same] using h)]
      | _ => simp [same] at h
  | opt a, b, h => by
      cases b with
      | opt b => rw [eq_of_same a b (by simpa [same] using h)]
      | _ => simp [same] at h
  | unless_ a a', b, h => by
      cases b with
      | unless_ b b' =>
          simp only [same, Bool.and_eq_true] at h
          rw [eq_of_same a b h.1, eq_of_same a' b' h.2]
      | _ => simp [same] at h
  | repeat_ a, b, h => by
      cases b with
      | repeat_ b => rw [eq_of_same a b (by simpa [same] using h)]
      | _ => simp [same] at h
  | repeatAndThen a a' m, b, h => by
      cases b with
      | repeatAndThen b b' n =>
          simp only [same, Bool.and_eq_true, decide_eq_true_eq] at h
          rw [eq_of_same a b h.1.1, eq_of_same a' b' h.1.2, h.2]
      | _ => simp [same] at h
  | exactly m a, b, h => by
      cases b with
      | exactly n b =>
          simp only [same, Bool.and_eq_true, decide_eq_true_eq] at h
          rw [h.1, eq_of_same a b h.2]
      | _ => simp [same] at h
  | atLeast m a, b, h => by
      cases b with
      | atLeast n b =>
          simp only [same, Bool.and_eq_true, decide_eq_true_eq] at h
          rw [h.1, eq_of_same a b h.2]
      | _ => simp [same] at h
  | atMost m a, b, h => by
      cases b with
      | atMost n b =>
          simp only [same, Bool.and_eq_true, decide_eq_true_eq] at h
          rw [h.1, eq_of_same a b h.2]
      | _ => simp [same] at h
  | between m m' a, b, h => by
      cases b with
      | between n n' b =>
          simp only [same, Bool.and_eq_true, decide_eq_true_eq] at h
          rw [h.1.1, h.1.2, eq_of_same a b h.2]
      | _ => simp [same] at h
  | inter a a', b, h => by
      cases b with
      | inter b b' =>
          simp only [same, Bool.and_eq_true] at h
          rw [eq_of_same a b h.1, eq_of_same a' b' h.2]
      | _ => simp [same] at h
  | impliedDelim d a, b, h => by
      cases b with
      | impliedDelim e b =>
          simp only [same, Bool.and_eq_true] at h
          rw [eq_of_same d e h.1, eq_of_sameAll a b h.2]
      | _ => simp [same] at h
  | force a, b, h => by
      cases b with
      | force b => rw [eq_of_same a b (by simpa [same] using h)]
      | _ => simp [same] at h
  | trim a, b, h => by
      cases b with
      | trim b => rw [eq_of_same a b (by simpa [same] using h)]
      | _ => simp [same] at h
  | forwardRef m, b, h => by cases b <;> simp_all [same]

theorem eq_of_sameAll [DecidableEq ρ] [DecidableEq φ] :
    ∀ a b : List (Rule ρ φ), same.sameAll a b = true → a = b
  | [], b, h => by cases b <;> simp_all [same.sameAll]
  | x :: a, b, h => by
      cases b with
      | nil => simp [same.sameAll] at h
      | cons y b =>
          simp only [same.sameAll, Bool.and_eq_true] at h
          rw [eq_of_same x y h.1, eq_of_sameAll a b h.2]

end

mutual

theorem same_self [DecidableEq ρ] [DecidableEq φ] : ∀ a : Rule ρ φ, same a a = true
  | literal _ | charFilter _ | anyChar | token _ | success | failure | forwardRef _ => by
      simp [same]
  | charClass a | concat a | either a => by simpa [same] using sameAll_self a
  | opt a | repeat_ a | force a | trim a => by simpa [same] using same_self a
  | exactly _ a | atLeast _ a | atMost _ a | between _ _ a => by simpa [same] using same_self a
  | unless_ a b | inter a b | repeatAndThen a b _ => by simp [same, same_self a, same_self b]
  | impliedDelim d a => by simp [same, same_self d, sameAll_self a]

theorem sameAll_self [DecidableEq ρ] [DecidableEq φ] :
    ∀ a : List (Rule ρ φ), same.sameAll a a = true
  | [] => rfl
  | x :: a => by simp [same.sameAll, same_self x, sameAll_self a]

end

instance [DecidableEq ρ] [DecidableEq φ] : DecidableEq (Rule ρ φ) := fun a b =>
  decidable_of_iff (same a b = true) ⟨eq_of_same a b, fun h => h ▸ same_self a⟩

/-- `IsSingleCharRule`: the rule accepts a single character on success.  `single` is the trait of
the forward references. -/
def isSingleCharRule (single : ρ → Bool) : Rule ρ φ → Bool
  | literal [_] => true
  | charFilter _ => true
  | anyChar => true
  | charClass _ => true
  | either gs => trueForAll gs
  | unless_ r d => isSingleCharRule single r && isSingleCharRule single d
  | force g => isSingleCharRule single g
  | forwardRef m => single m
  | _ => false
where
  /-- `TrueForAll<IsSingleCharRule, ...>`. -/
  trueForAll : List (Rule ρ φ) → Bool
    | [] => true
    | g :: gs => isSingleCharRule single g && trueForAll gs

/-- The forward references whose traits the trait of a rule is computed from. -/
def traitRefs : Rule ρ φ → List ρ
  | either gs => traitRefsAll gs
  | unless_ r d => traitRefs r ++ traitRefs d
  | force g => traitRefs g
  | forwardRef m => [m]
  | _ => []
where
  /-- Those of a parameter pack. -/
  traitRefsAll : List (Rule ρ φ) → List ρ
    | [] => []
    | g :: gs => traitRefs g ++ traitRefsAll gs

theorem isSingleCharRule_trueForAll {single : ρ → Bool} {gs : List (Rule ρ φ)} :
    isSingleCharRule.trueForAll single gs = true ↔
      ∀ g ∈ gs, g.isSingleCharRule single = true := by
  induction gs with
  | nil => simp [isSingleCharRule.trueForAll]
  | cons g gs ih => simp [isSingleCharRule.trueForAll, ih]

end Rule

/-! ### The selected parser -/

/-- The class template `Parser<G>` a rule selects. -/
inductive Special (ρ φ : Type) where
  /-- `class Parser<G> : public Parser<base>`. -/
  | inherits (base : Rule ρ φ)
  /-- `class Parser<ForwardRef<M>> : public Parser<typename M::type>`. -/
  | forwardRef (m : ρ)
  | success
  | failure
  | anyChar
  | literal (ch : ℤ)
  | charFilter (f : φ)
  | charClass (rules : List (Rule ρ φ))
  | token (get : List ℤ)
  | concat (first second : Rule ρ φ)
  | either (first second : Rule ρ φ)
  | unless_ (rejectGrammar defaultGrammar : Rule ρ φ)
  | repeat_ (grammar : Rule ρ φ)
  | repeatAndThen (repeated rest : Rule ρ φ) (backtrackMemorySize : ℕ)
  | force (grammar : Rule ρ φ)
  /-- No specialisation: the grammar does not compile. -/
  | undefined

/-- What a grammar is compiled against and run on.  `κ` is the character type of the input. -/
structure Env (ρ φ κ : Type) where
  /-- `M::type`, for the metafunction `M` of a `ForwardRef<M>`. -/
  type : ρ → Rule ρ φ
  /-- The predicate behind a `CharFilterFunction`. -/
  filter : φ → ℤ → Bool
  /-- `std::isspace`, which `Trim` refers to. -/
  isspace : φ
  /-- `IsSingleCharRule<typename M::type>`. -/
  single : ρ → Bool
  single_type : ∀ m, (type m).isSingleCharRule single = single m
  /-- `IsSingleCharRule<ForwardRef<M>>` inherits from the trait of `M::type`: a trait that inherits
  from itself does not compile. -/
  rank : ρ → ℕ
  rank_type : ∀ m, single m = true → ∀ m' ∈ (type m).traitRefs, rank m' < rank m
  /-- The `int` a character of the input converts to. -/
  toInt : κ → ℤ
  /-- Whether an index lies inside the lookup table of a `CharClass`. -/
  inTable : ℤ → Bool

namespace Env

variable {ρ φ κ : Type} (Γ : Env ρ φ κ)

/-- `Force<Repeat<CharFilter<std::isspace>>>`, the two ends of a `Trim`. -/
def forceSpaces : Rule ρ φ := .force (.repeat_ (.charFilter Γ.isspace))

/-- The specialisation of `Parser` selected for a rule.  A pack of three or more is split at once
into its head and the pack of the others: `Parser<Concat<A, B, C>>` inherits from
`Parser<Concat<A, Concat<B, C>>>`, whose `operator()` parses `A` and then `Concat<B, C>`. -/
def special : Rule ρ φ → Special ρ φ
  | .literal [] => .undefined
  | .literal [ch] => .literal ch
  | .literal (ch :: rest) => .concat (.literal [ch]) (.literal rest)
  | .charFilter f => .charFilter f
  | .anyChar => .anyChar
  | .charClass rules =>
      if rules.all (·.isSingleCharRule Γ.single) then .charClass rules else .undefined
  | .token get => .token get
  | .success => .success
  | .failure => .failure
  | .concat [] => .inherits .success
  | .concat [first] => .inherits first
  | .concat [first, second] => .concat first second
  | .concat (first :: rest) => .concat first (.concat rest)
  | .either [] => .inherits .failure
  | .either [grammar] => .inherits grammar
  | .either [first, second] => .either first second
  | .either (first :: rest) => .either first (.either rest)
  | .opt t => .inherits (.either [t, .success])
  | .unless_ r d => .unless_ r d
  | .repeat_ g => .repeat_ g
  | .repeatAndThen repeated rest m => .repeatAndThen repeated rest m
  | .exactly 0 _ => .inherits .success
  | .exactly 1 g => .inherits g
  | .exactly (n + 2) g => .inherits (.concat [g, .exactly (n + 1) g])
  | .atLeast n g => .inherits (.concat [.exactly n g, .repeat_ g])
  | .atMost 0 _ => .inherits .success
  | .atMost 1 g => .inherits (.opt g)
  | .atMost (n + 2) g => .inherits (.opt (.concat [g, .opt (.atMost (n + 1) g)]))
  | .between m n g =>
      if m ≤ n then .inherits (.concat [.exactly m g, .atMost (n - m) g]) else .undefined
  | .inter item delim => .inherits (.opt (.concat [item, .repeat_ (.concat [delim, item])]))
  | .impliedDelim _ [] => .inherits .success
  | .impliedDelim _ [singleton] => .inherits singleton
  | .impliedDelim delim (first :: rest) =>
      .inherits (.concat [first, delim, .impliedDelim delim rest])
  | .force g => .force g
  | .trim g => .inherits (.concat [Γ.forceSpaces, g, Γ.forceSpaces])
  | .forwardRef m => .forwardRef m

variable {Γ} in
theorem special_eq_force {g g' : Rule ρ φ} (h : Γ.special g = .force g') : g = .force g' := by
  unfold special at h
  split at h
  all_goals first | (cases h; done) | (split at h <;> cases h) | (cases h; rfl)

variable {Γ} in
theorem special_eq_charClass {g : Rule ρ φ} {rules : List (Rule ρ φ)}
    (h : Γ.special g = .charClass rules) :
    g = .charClass rules ∧ ∀ g' ∈ rules, g'.isSingleCharRule Γ.single = true := by
  unfold special at h
  split at h
  case h_6 rules' =>
    split at h
    next hall =>
      cases h
      exact ⟨rfl, List.all_eq_true.1 hall⟩
    next => cases h
  all_goals first | cases h | (split at h <;> cases h)

/-- The rule whose `Parser` is `OptimizedParser<G>`: a nonempty `Either` of single-character rules
is rewritten as a `CharClass`, any other one is split at its head. -/
def optimized : Rule ρ φ → Rule ρ φ
  | .either (first :: rest) =>
      if (Rule.either (first :: rest)).isSingleCharRule Γ.single then .charClass (first :: rest)
      else .either [first, .either rest]
  | g => g

theorem optimized_eq_self {g : Rule ρ φ} (h : ∀ first rest, g ≠ .either (first :: rest)) :
    Γ.optimized g = g := by
  cases g with
  | either gs =>
      cases gs with
      | nil => rfl
      | cons first rest => exact absurd rfl (h first rest)
  | _ => rfl

end Env

end Hittop
