/-
**Reading a text.**

A recognizer reads a text where it accepts exactly that text of a longer list.  What is read is said
together with what follows, so that readings are put together as the recognizers are, and loops read
pieces one after the other.

Main definitions:

* `Recognizer.Reads` — a text is read where another one follows.

Main results:

* `Recognizer.Reads.seq`, `Recognizer.Reads.star_flatten`, … — the combinators;
* `Recognizer.Reads.starThen`, `Recognizer.Reads.starThen_last`, `Recognizer.starThen_reject` — the
  loop that gives iterations back;
* `Recognizer.starThen_le` — what it does not give back.
-/

import Hittop.Library.Recognizer
import Mathlib.Computability.Language

set_option relaxedAutoImplicit false
set_option autoImplicit false

/-- Lists with a separator between them, as the first and the others with the separator in front. -/
theorem List.intercalate_cons_flatMap {α : Type} (sep x : List α) (xs : List (List α)) :
    sep.intercalate (x :: xs) = x ++ xs.flatMap fun x => sep ++ x := by
  induction xs generalizing x with
  | nil => simp [List.intercalate]
  | cons x' xs ih =>
      have hnext : sep.intercalate (x :: x' :: xs) = x ++ (sep ++ sep.intercalate (x' :: xs)) := by
        simp [List.intercalate]
      rw [hnext, ih, List.flatMap_cons, List.append_assoc]

namespace Recognizer

open Verdict

variable {α : Type}

/-! ### Reading a text -/

/-- `f` reads `x` where `y` follows. -/
def Reads (f : Recognizer α) (x y : List α) : Prop := f (x ++ y) = accept x.length

namespace Reads

variable {f g : Recognizer α} {x y z : List α}

theorem eps : Reads eps [] y := rfl

theorem satisfy {p : α → Bool} {a : α} (h : p a = true) : Reads (satisfy p) [a] y := by
  simp [Reads, h]

theorem seq (hf : Reads f x (y ++ z)) (hg : Reads g y z) : Reads (seq f g) (x ++ y) z := by
  rw [Reads, List.append_assoc, seq_of_accept hf, List.drop_left, hg, advance_accept,
    List.length_append]

/-- What comes after a text that is read decides. -/
theorem seq_apply (hf : Reads f x y) : Recognizer.seq f g (x ++ y) = (g y).advance x.length := by
  rw [seq_of_accept hf, List.drop_left]

theorem alt_left (h : Reads f x y) : Reads (alt f g) x y := by
  rw [Reads, alt_of_ne_reject (by rw [h]; simp), h]

theorem alt_right (hf : f (x ++ y) = reject) (hg : Reads g x y) : Reads (alt f g) x y := by
  rw [Reads, alt_of_reject hf, hg]

theorem exclude (hf : f (x ++ y) = reject) (hg : Reads g x y) : Reads (exclude f g) x y := by
  rw [Reads, exclude_of_reject hf, hg]

theorem opt (h : Reads f x y) : Reads (opt f) x y := h.alt_left

theorem opt_nil (h : f y = reject) : Reads (Recognizer.opt f) [] y :=
  alt_right (by simpa using h) Reads.eps

theorem star_nil (h : f y = reject) : Reads (star f) [] y := by
  rw [Reads, List.nil_append, star_of_reject h, List.length_nil]

theorem star_cons (hx : x ≠ []) (hf : Reads f x (y ++ z)) (hg : Reads (star f) y z) :
    Reads (star f) (x ++ y) z := by
  rw [Reads, List.append_assoc, star_of_accept hf (List.length_pos_iff.2 hx), List.drop_left, hg,
    advance_accept, List.length_append]

/-- A star reads pieces one after the other.  What `f` needs to know of the text behind a piece is
`F`. -/
theorem star_flatten {F : List α → Prop} {pieces : List (List α)}
    (hread : ∀ x ∈ pieces, x ≠ [] ∧ ∀ z, F z → Reads f x z) (hF : ∀ x ∈ pieces, ∀ z, F (x ++ z))
    (hy : F y) (hstop : f y = reject) : Reads (star f) pieces.flatten y := by
  induction pieces with
  | nil => exact star_nil hstop
  | cons x pieces ih =>
      obtain ⟨hx, hxread⟩ := hread x List.mem_cons_self
      have hrest : F (pieces.flatten ++ y) := by
        cases pieces with
        | nil => exact hy
        | cons x' pieces =>
            rw [List.flatten_cons, List.append_assoc]
            exact hF x' (List.mem_cons_of_mem _ List.mem_cons_self) _
      rw [List.flatten_cons]
      exact star_cons hx (hxread _ hrest) (ih (fun x hx => hread x (List.mem_cons_of_mem _ hx))
        fun x hx => hF x (List.mem_cons_of_mem _ hx))

/-- A star reads the texts of the star of a language. -/
theorem star_kstar {F : List α → Prop} {L : Language α}
    (hread : ∀ x ∈ L, x ≠ [] ∧ ∀ z, F z → Reads f x z) (hF : ∀ x ∈ L, ∀ z, F (x ++ z)) (hy : F y)
    (hstop : f y = reject) (hx : x ∈ KStar.kstar L) : Reads (star f) x y := by
  obtain ⟨pieces, rfl, hpieces⟩ := hx
  exact star_flatten (fun x hx => hread x (hpieces x hx)) (fun x hx => hF x (hpieces x hx)) hy hstop

/-- A star of a star reads what the star reads. -/
theorem star_star (h : Reads (star f) x y) (hstop : f y = reject) : Reads (star (star f)) x y := by
  have hzero : star f y = accept 0 := star_of_reject hstop
  have hlast : Reads (star (star f)) [] y := by
    rw [Reads, List.nil_append, star_eq, hzero]
    rfl
  cases x with
  | nil => exact hlast
  | cons a x =>
      have hcons := star_cons (y := []) (z := y) (List.cons_ne_nil a x) h hlast
      rwa [List.append_nil] at hcons

/-- A star reads the elements of a class up to one that is not in it. -/
theorem star_satisfy {p : α → Bool} (hx : ∀ a ∈ x, p a = true)
    (hstop : Recognizer.satisfy p y = reject) : Reads (star (Recognizer.satisfy p)) x y := by
  induction x with
  | nil => exact star_nil hstop
  | cons a x ih =>
      exact star_cons (x := [a]) (by simp) (Reads.satisfy (hx a List.mem_cons_self))
        (ih fun b hb => hx b (List.mem_cons_of_mem _ hb))

/-- At least one element of a class. -/
theorem some_satisfy {p : α → Bool} (hne : x ≠ []) (hx : ∀ a ∈ x, p a = true)
    (hstop : Recognizer.satisfy p y = reject) :
    Reads (Recognizer.seq (Recognizer.satisfy p) (star (Recognizer.satisfy p))) x y := by
  obtain ⟨a, x, rfl⟩ := List.exists_cons_of_ne_nil hne
  exact seq (x := [a]) (Reads.satisfy (hx a List.mem_cons_self))
    (star_satisfy (fun b hb => hx b (List.mem_cons_of_mem _ hb)) hstop)

/-- As many elements of a class. -/
theorem power_satisfy {p : α → Bool} (hx : ∀ a ∈ x, p a = true) :
    Reads (power (Recognizer.satisfy p) x.length) x y := by
  induction x with
  | nil => exact Reads.eps
  | cons a x ih =>
      exact seq (x := [a]) (Reads.satisfy (hx a List.mem_cons_self))
        (ih fun b hb => hx b (List.mem_cons_of_mem _ hb))

/-- Where the list ends before the class does, the star asks for more; a forced one does not. -/
theorem force_star_satisfy {p : α → Bool} (hx : ∀ a ∈ x, p a = true)
    (hstop : ∀ a ∈ y.head?, p a = false) :
    Reads (force (star (Recognizer.satisfy p))) x y := by
  cases y with
  | nil =>
      have hstar : star (Recognizer.satisfy p) x = incomplete := by
        induction x with
        | nil => exact star_of_incomplete satisfy_nil
        | cons a x ih =>
            have ha : p a = true := hx a List.mem_cons_self
            rw [star_of_accept (n := 1) (by simp [ha]) Nat.one_pos, List.drop_one, List.tail_cons,
              ih fun b hb => hx b (List.mem_cons_of_mem _ hb), advance_incomplete]
      rw [Reads, List.append_nil, force_apply, hstar]
  | cons a y =>
      have ha : p a = false := hstop a rfl
      have hread : Reads (star (Recognizer.satisfy p)) x (a :: y) := star_satisfy hx (by simp [ha])
      rw [Reads, force_apply, hread]

/-- A repetition with delimiters, from a delimiter on. -/
theorem star_delimited {d : Recognizer α} (hx : x ≠ []) (hd : Reads d x (y ++ z))
    (h : Reads (Recognizer.seq f (star (Recognizer.seq d f))) y z) :
    Reads (star (Recognizer.seq d f)) (x ++ y) z := by
  obtain ⟨m, n, hf, hstar, hlength⟩ := seq_eq_accept.1 h
  have hpos : 0 < x.length := List.length_pos_iff.2 hx
  have hturn : Recognizer.seq d f (x ++ (y ++ z)) = accept (x.length + m) := by
    rw [hd.seq_apply, hf, advance_accept]
  rw [Reads, List.append_assoc, star_of_accept hturn (by omega), ← List.drop_drop, List.drop_left,
    hstar, advance_accept, List.length_append, hlength, Nat.add_assoc]

theorem text {β : Type} [DecidableEq β] (value : α → β) (x y : List α) :
    Reads (text value (x.map value)) x y := by
  induction x with
  | nil => exact Reads.eps
  | cons a x ih => exact Reads.seq (x := [a]) (Reads.satisfy (by simp)) ih

theorem take_eq (_ : Reads f x y) : (x ++ y).take x.length = x := List.take_left

/-- What is accepted is read. -/
theorem of_accept {s : List α} {n : ℕ} (h : f s = accept n) : Reads f (s.take n) (s.drop n) := by
  rw [Reads, List.take_append_drop, h, List.length_take, Nat.min_eq_left (le_length h)]

end Reads

/-- A text is accepted where the elements have its values. -/
theorem text_eq_accept {β : Type} [DecidableEq β] {value : α → β} {x : List β} {s : List α}
    {n : ℕ} :
    text value x s = accept n ↔ n = x.length ∧ x <+: s.map value := by
  induction x generalizing s n with
  | nil => simp [text, eq_comm]
  | cons b x ih =>
      cases s with
      | nil => simp [text, seq_of_incomplete satisfy_nil]
      | cons a s =>
          rw [text, seq_eq_accept, List.map_cons, List.cons_prefix_cons, List.length_cons]
          constructor
          · rintro ⟨k, m, ha, hx, rfl⟩
            by_cases hab : value a = b
            · simp only [satisfy_cons, hab, decide_true, if_true, accept.injEq] at ha
              subst ha
              obtain ⟨rfl, hprefix⟩ := ih.1 hx
              exact ⟨Nat.add_comm _ _, hab.symm, hprefix⟩
            · simp [satisfy_cons, hab] at ha
          · rintro ⟨rfl, hab, hprefix⟩
            exact ⟨1, x.length, by simp [hab.symm], ih.2 ⟨rfl, hprefix⟩, Nat.add_comm _ _⟩

/-- A text is rejected where the list neither begins with it nor ends before it does. -/
theorem text_reject {β : Type} [DecidableEq β] {value : α → β} {x : List β} {s : List α}
    (hx : ¬ x <+: s.map value) (hs : ¬ s.map value <+: x) : text value x s = reject := by
  induction x generalizing s with
  | nil => exact absurd List.nil_prefix hx
  | cons b x ih =>
      cases s with
      | nil => exact absurd List.nil_prefix hs
      | cons a s =>
          rw [List.map_cons, List.cons_prefix_cons] at hx hs
          by_cases hab : value a = b
          · have hrest := ih (fun h => hx ⟨hab.symm, h⟩) fun h => hs ⟨hab, h⟩
            rw [text, seq_of_accept (n := 1) (by simp [hab]), List.drop_one, List.tail_cons, hrest,
              advance_reject]
          · exact seq_of_reject (by simp [hab])

/-! ### Reading with a bounded memory -/

section StarThen

variable {f g : Recognizer α} {s t x y z : List α} {size back : ℕ} {prior : List ℕ}

theorem climbFrom_reads {k : ℕ} (hs : s.drop back = x ++ t) (hx : x ≠ []) (hf : Reads f x t) :
    climbFrom f size s (k + 1) (back :: prior) =
      climbFrom f size s k (((back + x.length) :: back :: prior).take size) := by
  obtain ⟨n, hn⟩ : ∃ n, x.length = n + 1 :=
    ⟨x.length - 1, (Nat.sub_add_cancel (List.length_pos_iff.2 hx)).symm⟩
  rw [Reads, ← hs, hn] at hf
  rw [climbFrom, hf, hn]

theorem climbFrom_stop {k : ℕ} (hf : f (s.drop back) = reject) :
    climbFrom f size s (k + 1) (back :: prior) = some (back :: prior) := by
  rw [climbFrom, hf]

/-- The loop goes over pieces that are read one after the other.  Each position it remembers is one
it started from or the beginning of a piece. -/
theorem climbFrom_flatten {F : List α → Prop} {pieces : List (List α)} (s : List α) (back : ℕ)
    (prior : List ℕ) (k : ℕ) (hsize : 0 < size)
    (hread : ∀ x ∈ pieces, x ≠ [] ∧ ∀ z, F z → Reads f x z) (hF : ∀ x ∈ pieces, ∀ z, F (x ++ z))
    (ht : F t) (hs : s.drop back = pieces.flatten ++ t) :
    ∃ prior', climbFrom f size s (k + pieces.length) (back :: prior) =
        climbFrom f size s k ((back + pieces.flatten.length) :: prior') ∧
      ∀ p ∈ prior', p ∈ prior ∨ ∃ x z, x ∈ pieces ∧ s.drop p = x ++ z := by
  induction pieces generalizing back prior with
  | nil => exact ⟨prior, rfl, fun p hp => .inl hp⟩
  | cons x pieces ih =>
      obtain ⟨hx, hxread⟩ := hread x List.mem_cons_self
      have hrest : F (pieces.flatten ++ t) := by
        cases pieces with
        | nil => exact ht
        | cons x' pieces =>
            rw [List.flatten_cons, List.append_assoc]
            exact hF x' (List.mem_cons_of_mem _ List.mem_cons_self) _
      rw [List.flatten_cons, List.append_assoc] at hs
      have hdrop : s.drop (back + x.length) = pieces.flatten ++ t := by
        rw [← List.drop_drop, hs, List.drop_left]
      -- the memory has room for one position at least: the latest one is always there
      obtain ⟨size, rfl⟩ : ∃ n, size = n + 1 := ⟨size - 1, (Nat.sub_add_cancel hsize).symm⟩
      obtain ⟨prior', hclimb, hprior⟩ := ih _ ((back :: prior).take size)
        (fun x hx => hread x (List.mem_cons_of_mem _ hx))
        (fun x hx => hF x (List.mem_cons_of_mem _ hx)) hdrop
      refine ⟨prior', ?_, fun p hp => ?_⟩
      · rw [List.length_cons, ← Nat.add_assoc, climbFrom_reads hs hx (hxread _ hrest),
          List.take_succ_cons, hclimb, List.flatten_cons, List.length_append, Nat.add_assoc]
      · rcases hprior p hp with hp | ⟨x', z, hx', hz⟩
        · rcases List.mem_cons.1 (List.mem_of_mem_take hp) with rfl | hp
          · exact .inr ⟨x, _, List.mem_cons_self, hs⟩
          · exact .inl hp
        · exact .inr ⟨x', z, List.mem_cons_of_mem _ hx', hz⟩

theorem fallBack_of_ne_reject (h : g (s.drop back) ≠ reject) :
    fallBack g s (back :: prior) = (g (s.drop back)).advance back := by
  cases prior with
  | nil => rfl
  | cons p prior =>
      rw [fallBack]
      · cases hg : g (s.drop back) with
        | accept n => rfl
        | incomplete => rfl
        | reject => exact absurd hg h
      · simp

theorem fallBack_of_reject (h : g (s.drop back) = reject) :
    fallBack g s (back :: prior) = fallBack g s prior := by
  cases prior with
  | nil =>
      change (g (s.drop back)).advance back = reject
      rw [h]
      rfl
  | cons p prior =>
      rw [fallBack]
      · rw [h]
      · simp

theorem fallBack_reject (h : ∀ p ∈ prior, g (s.drop p) = reject) : fallBack g s prior = reject := by
  induction prior with
  | nil => rfl
  | cons p prior ih =>
      rw [fallBack_of_reject (h p List.mem_cons_self)]
      exact ih fun q hq => h q (List.mem_cons_of_mem _ hq)

/-- There are no more pieces than elements. -/
theorem length_le_flatten {pieces : List (List α)} (h : ∀ x ∈ pieces, x ≠ []) :
    pieces.length ≤ pieces.flatten.length := by
  induction pieces with
  | nil => exact Nat.le_refl _
  | cons x pieces ih =>
      have hx := List.length_pos_iff.2 (h x List.mem_cons_self)
      have hrest := ih fun z hz => h z (List.mem_cons_of_mem _ hz)
      rw [List.flatten_cons, List.length_append, List.length_cons]
      omega

/-- The positions that the loop over pieces ends with. -/
theorem climb_flatten {F : List α → Prop} {pieces : List (List α)} (hsize : 0 < size)
    (hread : ∀ x ∈ pieces, x ≠ [] ∧ ∀ z, F z → Reads f x z) (hF : ∀ x ∈ pieces, ∀ z, F (x ++ z))
    (ht : F t) (hstop : f t = reject) :
    ∃ prior, climbFrom f size (pieces.flatten ++ t) ((pieces.flatten ++ t).length + 1)
        ([0].take size) = some (pieces.flatten.length :: prior) ∧
      ∀ p ∈ prior, ∃ x z, x ∈ pieces ∧ (pieces.flatten ++ t).drop p = x ++ z := by
  obtain ⟨size, rfl⟩ : ∃ n, size = n + 1 := ⟨size - 1, (Nat.sub_add_cancel hsize).symm⟩
  have hle := length_le_flatten fun x hx => (hread x hx).1
  obtain ⟨k, hk⟩ : ∃ k, (pieces.flatten ++ t).length + 1 = k + 1 + pieces.length := by
    refine ⟨(pieces.flatten ++ t).length - pieces.length, ?_⟩
    rw [List.length_append]
    omega
  obtain ⟨prior, hclimb, hprior⟩ := climbFrom_flatten (pieces.flatten ++ t) 0 [] (k + 1) hsize
    hread hF ht List.drop_zero
  refine ⟨prior, ?_, fun p hp => (hprior p hp).resolve_left (by simp)⟩
  rw [Nat.zero_add] at hclimb
  rw [hk, List.take_succ_cons, List.take_nil, hclimb, climbFrom_stop]
  rw [List.drop_left]
  exact hstop

/-- Nothing has to be given back. -/
theorem Reads.starThen {F : List α → Prop} {pieces : List (List α)} (hsize : 0 < size)
    (hread : ∀ x ∈ pieces, x ≠ [] ∧ ∀ z, F z → Reads f x z) (hF : ∀ x ∈ pieces, ∀ z, F (x ++ z))
    (ht : F (z ++ y)) (hstop : f (z ++ y) = reject) (hg : Reads g z y) :
    Reads (starThen size f g) (pieces.flatten ++ z) y := by
  obtain ⟨prior, hclimb, -⟩ := climb_flatten hsize hread hF ht hstop
  have hlast : g ((pieces.flatten ++ (z ++ y)).drop pieces.flatten.length) = accept z.length := by
    rw [List.drop_left]
    exact hg
  rw [Reads, List.append_assoc, starThen_apply, hclimb]
  simp only
  rw [fallBack_of_ne_reject (by rw [hlast]; simp), hlast, advance_accept, List.length_append]

/-- Wherever the loop could go back to, `g` rejects. -/
theorem starThen_reject {F : List α → Prop} {pieces : List (List α)} (hsize : 0 < size)
    (hread : ∀ x ∈ pieces, x ≠ [] ∧ ∀ z, F z → Reads f x z) (hF : ∀ x ∈ pieces, ∀ z, F (x ++ z))
    (ht : F t) (hstop : f t = reject) (hg : ∀ x ∈ pieces, ∀ z, g (x ++ z) = reject)
    (hgt : g t = reject) : starThen size f g (pieces.flatten ++ t) = reject := by
  obtain ⟨prior, hclimb, hprior⟩ := climb_flatten hsize hread hF ht hstop
  rw [starThen_apply, hclimb]
  simp only
  refine fallBack_reject fun p hp => ?_
  rcases List.mem_cons.1 hp with rfl | hp
  · rw [List.drop_left]
    exact hgt
  · obtain ⟨x, z, hx, hz⟩ := hprior p hp
    rw [hz]
    exact hg x hx z

/-- A list of positions, the latest first, where `back` is left if an earlier one is. -/
def Remembers (back : ℕ) (prior : List ℕ) : Prop :=
  ∃ later older, prior = later ++ older ∧ (∀ p ∈ later, back ≤ p) ∧
    (older = [] ∨ older.head? = some back)

theorem Remembers.head {p : ℕ} (h : Remembers back (p :: prior)) : back ≤ p := by
  obtain ⟨later, older, hprior, hlater, holder⟩ := h
  cases later with
  | nil =>
      rw [List.nil_append] at hprior
      rw [← hprior, List.head?_cons, Option.some.injEq] at holder
      rcases holder with hnone | rfl
      · cases hnone
      · exact Nat.le_refl _
  | cons q later =>
      obtain ⟨rfl, -⟩ := List.cons.inj hprior
      exact hlater p List.mem_cons_self

theorem Remembers.take {p : ℕ} (h : Remembers back prior) (hp : back ≤ p) :
    Remembers back ((p :: prior).take size) := by
  obtain ⟨later, older, rfl, hlater, holder⟩ := h
  refine ⟨(p :: later).take size, older.take (size - (p :: later).length), ?_, ?_, ?_⟩
  · rw [← List.cons_append, List.take_append]
  · intro q hq
    rcases List.mem_cons.1 (List.mem_of_mem_take hq) with rfl | hq
    · exact hp
    · exact hlater q hq
  · rcases holder with rfl | holder
    · exact .inl List.take_nil
    · cases hrest : size - (p :: later).length with
      | zero => exact .inl List.take_zero
      | succ k => exact .inr (by rw [List.head?_take, if_neg (Nat.succ_ne_zero k), holder])

/-- The loop goes on to later positions. -/
theorem climbFrom_remembers {k : ℕ} {prior' : List ℕ} (h : Remembers back prior)
    (hclimb : climbFrom f size s k prior = some prior') : Remembers back prior' := by
  induction k generalizing prior with
  | zero =>
      cases hclimb
      exact h
  | succ k ih =>
      cases prior with
      | nil =>
          cases hclimb
          exact h
      | cons p older =>
          rw [climbFrom] at hclimb
          split at hclimb
          next =>
            cases hclimb
            exact h
          next n hn => exact ih (h.take (Nat.le_add_right_of_le h.head)) hclimb
          next => cases hclimb
          next =>
            cases hclimb
            exact h

/-- What is given back ends where `g` does not reject. -/
theorem Remembers.fallBack_le {n : ℕ} (h : Remembers back prior) (hg : g (s.drop back) ≠ reject)
    (hn : fallBack g s prior = accept n) : back ≤ n := by
  obtain ⟨later, older, rfl, hlater, holder⟩ := h
  induction later with
  | nil =>
      rcases holder with rfl | holder
      · cases hn
      · obtain ⟨older, rfl⟩ : ∃ rest, older = back :: rest := by
          cases older with
          | nil => cases holder
          | cons p older => exact ⟨older, by rw [Option.some.inj holder]⟩
        rw [List.nil_append, fallBack_of_ne_reject hg, advance_eq_accept] at hn
        obtain ⟨m, -, rfl⟩ := hn
        exact Nat.le_add_right back m
  | cons p later ih =>
      rw [List.cons_append] at hn
      by_cases hp : g (s.drop p) = reject
      · rw [fallBack_of_reject hp] at hn
        exact ih hn fun q hq => hlater q (List.mem_cons_of_mem _ hq)
      · rw [fallBack_of_ne_reject hp, advance_eq_accept] at hn
        obtain ⟨m, -, rfl⟩ := hn
        exact Nat.le_add_right_of_le (hlater p List.mem_cons_self)

/-- A position behind which `g` does not reject is not given back, unless `g` rejects as a whole. -/
theorem starThen_le {F : List α → Prop} {pieces : List (List α)} {n : ℕ} (hsize : 0 < size)
    (hread : ∀ x ∈ pieces, x ≠ [] ∧ ∀ z, F z → Reads f x z) (hF : ∀ x ∈ pieces, ∀ z, F (x ++ z))
    (ht : F t) (hg : g t ≠ reject) (h : starThen size f g (pieces.flatten ++ t) = accept n) :
    pieces.flatten.length ≤ n := by
  obtain ⟨size, rfl⟩ : ∃ n, size = n + 1 := ⟨size - 1, (Nat.sub_add_cancel hsize).symm⟩
  have hle := length_le_flatten fun x hx => (hread x hx).1
  obtain ⟨k, hk⟩ : ∃ k, (pieces.flatten ++ t).length + 1 = k + pieces.length := by
    refine ⟨(pieces.flatten ++ t).length + 1 - pieces.length, ?_⟩
    rw [List.length_append]
    omega
  obtain ⟨older, hstart, -⟩ := climbFrom_flatten (pieces.flatten ++ t) 0 [] k hsize hread hF ht
    List.drop_zero
  rw [Nat.zero_add] at hstart
  rw [starThen_apply, hk, List.take_succ_cons, List.take_nil, hstart] at h
  cases hclimb : climbFrom f (size + 1) (pieces.flatten ++ t) k
      (pieces.flatten.length :: older) with
  | none =>
      rw [hclimb] at h
      cases h
  | some prior =>
      rw [hclimb] at h
      have hremembers : Remembers pieces.flatten.length prior :=
        climbFrom_remembers ⟨[], _, rfl, by simp, .inr rfl⟩ hclimb
      exact hremembers.fallBack_le (by rwa [List.drop_left]) h

/-- The last piece is given back. -/
theorem Reads.starThen_last {F : List α → Prop} {pieces : List (List α)} (hsize : 1 < size)
    (hread : ∀ x ∈ pieces, x ≠ [] ∧ ∀ z, F z → Reads f x z) (hF : ∀ x ∈ pieces, ∀ z, F (x ++ z))
    (hx : x ≠ []) (hlast : F (x ++ y)) (hfx : Reads f x y) (hstop : f y = reject)
    (hgy : g y = reject) (hg : Reads g x y) :
    Reads (Recognizer.starThen size f g) (pieces.flatten ++ x) y := by
  obtain ⟨size, rfl⟩ : ∃ n, size = n + 2 := ⟨size - 2, (Nat.sub_add_cancel hsize).symm⟩
  have hle := length_le_flatten fun x hx => (hread x hx).1
  have hpos := List.length_pos_iff.2 hx
  obtain ⟨k, hk⟩ : ∃ k, (pieces.flatten ++ x ++ y).length + 1 = k + 2 + pieces.length := by
    refine ⟨(pieces.flatten ++ x ++ y).length - 1 - pieces.length, ?_⟩
    simp only [List.length_append]
    omega
  have hwhole : (pieces.flatten ++ x ++ y).drop 0 = pieces.flatten ++ (x ++ y) :=
    List.append_assoc _ _ _
  obtain ⟨prior, hclimb, -⟩ := climbFrom_flatten (pieces.flatten ++ x ++ y) 0 [] (k + 2)
    (Nat.succ_pos (size + 1)) hread hF hlast hwhole
  have hend : (pieces.flatten ++ x ++ y).drop (pieces.flatten.length + x.length) = y :=
    List.drop_left' List.length_append
  have hback : (pieces.flatten ++ x ++ y).drop pieces.flatten.length = x ++ y := by
    rw [List.append_assoc, List.drop_left]
  rw [Nat.zero_add] at hclimb
  rw [Reads, starThen_apply, hk, List.take_succ_cons, List.take_nil, hclimb,
    climbFrom_reads hback hx hfx, List.take_succ_cons, List.take_succ_cons,
    climbFrom_stop (by rw [hend]; exact hstop)]
  simp only
  rw [fallBack_of_reject (by rw [hend]; exact hgy),
    fallBack_of_ne_reject (by rw [hback, hg]; simp), hback, hg, advance_accept, List.length_append]

/-- The last element of a class is given back. -/
theorem Reads.starThen_satisfy {p : α → Bool} {a : α} (hsize : 1 < size)
    (hx : ∀ b ∈ x, p b = true) (ha : p a = true) (hstop : Recognizer.satisfy p y = reject)
    (hgy : g y = reject) (hg : Reads g [a] y) :
    Reads (Recognizer.starThen size (Recognizer.satisfy p) g) (x ++ [a]) y := by
  have hpieces : (x.map fun b => [b]).flatten = x := by
    rw [← List.flatMap_def, List.flatMap_singleton']
  have hread : ∀ piece ∈ x.map (fun b => [b]), piece ≠ [] ∧
      ∀ z, True → Reads (Recognizer.satisfy p) piece z := by
    intro piece hpiece
    obtain ⟨b, hb, rfl⟩ := List.mem_map.1 hpiece
    exact ⟨by simp, fun z _ => Reads.satisfy (hx b hb)⟩
  have hlast := Reads.starThen_last (x := [a]) hsize hread (fun _ _ _ => trivial) (by simp) trivial
    (Reads.satisfy ha) hstop hgy hg
  rwa [hpieces] at hlast

end StarThen

end Recognizer
