/-
**What accepted texts look like.**

A property of texts that the empty list has and that goes over to concatenations holds of everything
a recognizer accepts as soon as it holds of what the parts of the recognizer accept.

Main definitions:

* `Recognizer.Ensures` — the accepted texts have a property;
* `Recognizer.Additive` — the empty list has the property, and concatenations have it;
* `Recognizer.Promises` — where more is asked for, there is a text that has it;
* `Recognizer.Confined` — both, for a language;
* `Recognizer.Halts` — elements that a recognizer does not go past.

Main results:

* `Recognizer.Ensures.star`, `Recognizer.Ensures.starThen` — the loops yield what their
  parts yield;
* `Recognizer.Confined.exact` — the language of a recognizer that needs no look ahead;
* `FirstEnd.shift` — the first occurrence of a text, after a part that is clear of it.
-/

import Hittop.Library.Guarded
import Hittop.Library.Reads
import Mathlib.Computability.Language

set_option relaxedAutoImplicit false
set_option autoImplicit false

namespace Recognizer

open Verdict

variable {α : Type} {f g : Recognizer α} {P Q R : List α → Prop}

/-- What `f` accepts has the property. -/
def Ensures (f : Recognizer α) (P : List α → Prop) : Prop := ∀ s n, f s = accept n → P (s.take n)

/-- A property of concatenations. -/
structure Additive (P : List α → Prop) : Prop where
  nil : P []
  append : ∀ {x y}, P x → P y → P (x ++ y)

/-- A property of each element. -/
theorem additive_all (p : α → Prop) : Additive fun x => ∀ a ∈ x, p a where
  nil := by simp
  append hx hy a ha := (List.mem_append.1 ha).elim (hx a) (hy a)

namespace Ensures

theorem mono (h : Ensures f P) (hPQ : ∀ x, P x → Q x) : Ensures f Q :=
  fun s n hf => hPQ _ (h s n hf)

theorem eps (h : P []) : Ensures eps P := by
  intro s n hf
  cases hf
  simpa using h

theorem fail : Ensures fail P := by
  intro s n hf
  cases hf

theorem satisfy {p : α → Bool} (h : ∀ a, p a = true → P [a]) : Ensures (satisfy p) P := by
  intro s n hf
  cases s with
  | nil => cases hf
  | cons a s =>
      rw [satisfy_cons] at hf
      split_ifs at hf with ha
      cases hf
      exact h a ha

/-- What a sequence accepts is what its parts accept, put together. -/
theorem seq_of (hf : Ensures f P) (hg : Ensures g Q) (hR : ∀ x y, P x → Q y → R (x ++ y)) :
    Ensures (seq f g) R := by
  intro s n h
  obtain ⟨a, b, ha, hb, rfl⟩ := seq_eq_accept.1 h
  rw [List.take_add]
  exact hR _ _ (hf s a ha) (hg _ b hb)

theorem mul {L M : Language α} (hf : Ensures f (· ∈ L)) (hg : Ensures g (· ∈ M)) :
    Ensures (Recognizer.seq f g) (· ∈ L * M) :=
  hf.seq_of hg fun x y hx hy => ⟨x, hx, y, hy, rfl⟩

theorem alt (hf : Ensures f P) (hg : Ensures g P) : Ensures (alt f g) P := by
  intro s n h
  rcases alt_eq_accept.1 h with h | ⟨-, h⟩
  · exact hf s n h
  · exact hg s n h

theorem opt (hf : Ensures f P) (h : P []) : Ensures (opt f) P := hf.alt (eps h)

theorem exclude (hg : Ensures g P) : Ensures (exclude f g) P := by
  intro s n h
  rw [exclude_apply] at h
  cases hf : f s with
  | accept k => simp [hf] at h
  | incomplete => simp [hf] at h
  | reject =>
      rw [hf] at h
      exact hg s n h

/-- What a description keeps of the recognizer inside holds of the one that is described. -/
theorem fix {F : Recognizer α → Recognizer α} (hF : ∀ f, Ensures f P → Ensures (F f) P) :
    Ensures (Recognizer.fix F) P := by
  have hunfolded (n : ℕ) : Ensures (unfolded F n) P := by
    induction n with
    | zero =>
        intro s n h
        cases h
    | succ n ih => exact hF _ ih
  exact fun s n h => hunfolded (s.length + 1) s n h

/-- What a star accepts is nothing, or what one iteration accepts and what a star accepts. -/
theorem star_of (hf : Ensures f P) (hnil : Q []) (hcons : ∀ x y, P x → Q y → Q (x ++ y)) :
    Ensures (star f) Q := by
  intro s
  induction hs : s.length using Nat.strongRecOn generalizing s with
  | ind len ih =>
      intro n h
      rw [star_eq] at h
      cases hfs : f s with
      | accept k =>
          cases k with
          | zero =>
              simp only [hfs, accept.injEq] at h
              simpa [← h] using hnil
          | succ k =>
              simp only [hfs, advance_eq_accept] at h
              obtain ⟨m, hm, rfl⟩ := h
              have hle := le_length hfs
              have hlt : (s.drop (k + 1)).length < len := by
                rw [List.length_drop]
                omega
              rw [List.take_add]
              exact hcons _ _ (hf s _ hfs) (ih _ hlt _ rfl m hm)
      | incomplete => simp [hfs] at h
      | reject =>
          simp only [hfs, accept.injEq] at h
          simpa [← h] using hnil

/-- At least one element of a class. -/
theorem some_satisfy {p : α → Bool} :
    Ensures (Recognizer.seq (Recognizer.satisfy p) (Recognizer.star (Recognizer.satisfy p)))
      fun x => x ≠ [] ∧ ∀ a ∈ x, p a = true := by
  have hone : Ensures (Recognizer.satisfy p) fun x => x ≠ [] ∧ ∀ a ∈ x, p a = true :=
    satisfy fun a ha => ⟨by simp, by simpa using ha⟩
  have hmore : Ensures (Recognizer.star (Recognizer.satisfy p)) fun x => ∀ a ∈ x, p a = true :=
    fun _ _ h => star_satisfy_mem h
  refine hone.seq_of hmore fun x y hx hy => ⟨by simp [hx.1], ?_⟩
  exact (additive_all _).append hx.2 hy

section StarThen

variable (hsnoc : ∀ x y, Q x → P y → Q (x ++ y)) {s : List α} {n : ℕ}

include hsnoc in
/-- The positions that a star went through are ends of what its iterations accept. -/
theorem climbFrom (hf : Ensures f P) {size : ℕ} {k : ℕ} {prior prior' : List ℕ}
    (hprior : ∀ p ∈ prior, Q (s.take p))
    (h : climbFrom f size s k prior = some prior') : ∀ p ∈ prior', Q (s.take p) := by
  induction k generalizing prior with
  | zero =>
      cases h
      exact hprior
  | succ k ih =>
      cases prior with
      | nil =>
          cases h
          exact hprior
      | cons back older =>
          simp only [Recognizer.climbFrom] at h
          split at h
          next =>
            cases h
            exact hprior
          next n hn =>
            refine ih (fun p hp => ?_) h
            rcases List.mem_cons.1 (List.mem_of_mem_take hp) with rfl | hp
            · rw [List.take_add]
              exact hsnoc _ _ (hprior back List.mem_cons_self) (hf _ _ hn)
            · exact hprior p hp
          next => cases h
          next =>
            cases h
            exact hprior

theorem fallBack (hend : ∀ x y, Q x → P y → R (x ++ y)) (hg : Ensures g P) : ∀ prior : List ℕ,
    (∀ p ∈ prior, Q (s.take p)) → fallBack g s prior = accept n → R (s.take n)
  | [], _, h => by cases h
  | [back], hprior, h => by
      rw [Recognizer.fallBack, advance_eq_accept] at h
      obtain ⟨m, hm, rfl⟩ := h
      rw [List.take_add]
      exact hend _ _ (hprior back List.mem_cons_self) (hg _ _ hm)
  | back :: older :: rest, hprior, h => by
      rw [Recognizer.fallBack] at h
      · split at h
        next =>
          exact fallBack hend hg (older :: rest)
            (fun p hp => hprior p (List.mem_cons_of_mem _ hp)) h
        next v hv =>
          obtain ⟨m, hm, rfl⟩ := advance_eq_accept.1 h
          rw [List.take_add]
          exact hend _ _ (hprior back List.mem_cons_self) (hg _ _ hm)
      · simp

include hsnoc in
/-- What a star with a fixed end accepts is what some iterations accept and what the end accepts. -/
theorem starThen_of {A : List α → Prop} (hf : Ensures f P) (hg : Ensures g A) (hnil : Q [])
    (hend : ∀ x y, Q x → A y → R (x ++ y)) (size : ℕ) : Ensures (starThen size f g) R := by
  intro s n h
  rw [starThen_apply] at h
  cases hclimb : Recognizer.climbFrom f size s (s.length + 1) ([0].take size) with
  | none => simp [hclimb] at h
  | some prior =>
      simp only [hclimb] at h
      refine fallBack hend hg prior (climbFrom hsnoc hf (fun p hp => ?_) hclimb) h
      have hzero := List.mem_of_mem_take hp
      rw [List.mem_singleton] at hzero
      subst hzero
      simpa using hnil

end StarThen

section Additive

variable (hP : Additive P)
include hP

theorem seq (hf : Ensures f P) (hg : Ensures g P) : Ensures (seq f g) P :=
  hf.seq_of hg fun _ _ => hP.append

theorem star (hf : Ensures f P) : Ensures (star f) P := hf.star_of hP.nil fun _ _ => hP.append

theorem power (hf : Ensures f P) (n : ℕ) : Ensures (power f n) P := by
  induction n with
  | zero => exact eps hP.nil
  | succ n ih => exact seq hP hf ih

theorem upTo (hf : Ensures f P) (n : ℕ) : Ensures (upTo f n) P := by
  induction n with
  | zero => exact eps hP.nil
  | succ n ih => exact opt (seq hP hf ih) hP.nil

theorem text {β : Type} [DecidableEq β] {value : α → β} (t : List β)
    (h : ∀ a, value a ∈ t → P [a]) : Ensures (text value t) P := by
  induction t with
  | nil => exact eps hP.nil
  | cons b t ih =>
      refine seq hP (satisfy fun a ha => h a ?_) (ih fun a ha => h a (List.mem_cons_of_mem _ ha))
      rw [of_decide_eq_true ha]
      exact List.mem_cons_self

theorem starThen (hf : Ensures f P) (hg : Ensures g P) (size : ℕ) :
    Ensures (starThen size f g) P :=
  starThen_of (fun _ _ => hP.append) hf hg hP.nil (fun _ _ => hP.append) size

end Additive

end Ensures

/-! ### Asking for more -/

/-- Where `f` asks for more, the list is the beginning of a text with the property. -/
def Promises (f : Recognizer α) (P : List α → Prop) : Prop :=
  ∀ s, f s = incomplete → ∃ x, P x ∧ s <+: x

namespace Promises

theorem satisfy {p : α → Bool} {x : List α} (hx : P x) : Promises (satisfy p) P := by
  intro s h
  cases s with
  | nil => exact ⟨x, hx, List.nil_prefix⟩
  | cons a s =>
      rw [satisfy_cons] at h
      split_ifs at h

theorem seq_of (hf : Promises f P) (hf' : Ensures f P) (hg : Promises g Q) {y : List α} (hy : Q y)
    (hR : ∀ x y, P x → Q y → R (x ++ y)) : Promises (seq f g) R := by
  intro s h
  cases hfs : f s with
  | accept n =>
      rw [seq_of_accept hfs, advance_eq_incomplete] at h
      obtain ⟨x, hx, t, ht⟩ := hg _ h
      refine ⟨s.take n ++ x, hR _ _ (hf' s n hfs) hx, t, ?_⟩
      rw [← ht, ← List.append_assoc, List.take_append_drop]
  | incomplete =>
      obtain ⟨x, hx, t, rfl⟩ := hf s hfs
      exact ⟨s ++ t ++ y, hR _ _ hx hy, t ++ y, (List.append_assoc ..).symm⟩
  | reject => simp [seq_of_reject hfs] at h

theorem alt (hf : Promises f P) (hg : Promises g P) : Promises (alt f g) P := by
  intro s h
  cases hfs : f s with
  | accept n => simp [alt_apply, hfs] at h
  | incomplete => exact hf s hfs
  | reject =>
      rw [alt_of_reject hfs] at h
      exact hg s h

theorem opt (hf : Promises f P) : Promises (opt f) P :=
  hf.alt fun _ h => by cases h

theorem star_of (hf : Promises f P) (hf' : Ensures f P) (hnil : Q [])
    (hcons : ∀ x y, P x → Q y → Q (x ++ y)) : Promises (star f) Q := by
  intro s h
  induction hs : s.length using Nat.strongRecOn generalizing s with
  | ind len ih =>
      cases hfs : f s with
      | accept k =>
          rcases Nat.eq_zero_or_pos k with rfl | hk
          · simp [star_eq, hfs] at h
          · rw [star_of_accept hfs hk, advance_eq_incomplete] at h
            have hle := le_length hfs
            have hlt : (s.drop k).length < len := by
              rw [List.length_drop]
              omega
            obtain ⟨x, hx, t, ht⟩ := ih _ hlt _ h rfl
            refine ⟨s.take k ++ x, hcons _ _ (hf' s k hfs) hx, t, ?_⟩
            rw [← ht, ← List.append_assoc, List.take_append_drop]
      | incomplete =>
          obtain ⟨x, hx, hprefix⟩ := hf s hfs
          exact ⟨x ++ [], hcons _ _ hx hnil, by rwa [List.append_nil]⟩
      | reject => simp [star_of_reject hfs] at h

end Promises

/-! ### Languages -/

/-- What `f` accepts is in the language, and where it asks for more, the list is the beginning of a
text in it. -/
structure Confined (f : Recognizer α) (L : Language α) : Prop where
  accepted : Ensures f (· ∈ L)
  promised : Promises f (· ∈ L)
  nonempty : ∃ x, x ∈ L

namespace Confined

variable {L M : Language α} {p : α → Bool} {a : α}

/-- Texts of a sequence are texts of its parts, put together. -/
theorem mul (hf : Confined f L) (hg : Confined g M) : Confined (seq f g) (L * M) where
  accepted := hf.accepted.mul hg.accepted
  promised := by
    obtain ⟨y, hy⟩ := hg.nonempty
    exact hf.promised.seq_of hf.accepted hg.promised hy fun x y hx hy => ⟨x, hx, y, hy, rfl⟩
  nonempty := by
    obtain ⟨x, hx⟩ := hf.nonempty
    obtain ⟨y, hy⟩ := hg.nonempty
    exact ⟨x ++ y, x, hx, y, hy, rfl⟩

theorem text {β : Type} [DecidableEq β] {value : α → β} (hvalue : Function.Injective value)
    (x : List α) : Confined (text value (x.map value)) {x} where
  accepted s n h := by
    obtain ⟨rfl, hprefix⟩ := text_eq_accept.1 h
    rw [List.prefix_map_iff_of_injective hvalue, List.prefix_iff_eq_take] at hprefix
    rw [List.length_map]
    exact hprefix.symm
  promised s h := by
    refine ⟨x, rfl, ?_⟩
    by_contra hs
    rw [← List.prefix_map_iff_of_injective hvalue] at hs
    by_cases hx : x.map value <+: s.map value
    · rw [text_eq_accept.2 ⟨rfl, hx⟩] at h
      cases h
    · rw [text_reject hx hs] at h
      cases h
  nonempty := ⟨x, rfl⟩

/-- A run of elements of a class. -/
theorem star_satisfy : Confined (star (satisfy p)) {x | ∀ a ∈ x, p a = true} where
  accepted _ _ h := star_satisfy_mem h
  promised s h := by
    refine ⟨s, ?_, List.prefix_refl s⟩
    induction s with
    | nil => exact fun a ha => absurd ha List.not_mem_nil
    | cons a s ih =>
        by_cases ha : p a = true
        · rw [star_of_accept (n := 1) (by simp [ha]) Nat.one_pos, advance_eq_incomplete] at h
          exact List.forall_mem_cons.2 ⟨ha, ih h⟩
        · rw [star_of_reject (by simp [ha])] at h
          cases h
  nonempty := ⟨[], fun a ha => absurd ha List.not_mem_nil⟩

/-- As many elements of a class. -/
theorem power_satisfy (ha : p a = true) :
    ∀ n, Confined (power (satisfy p) n) {x | x.length = n ∧ ∀ a ∈ x, p a = true}
  | 0 => {
      accepted := fun s n h => by
        cases h
        exact ⟨rfl, by simp⟩
      promised := fun s h => by cases h
      nonempty := ⟨[], rfl, by simp⟩ }
  | n + 1 => by
      have hone : ∀ b : α, p b = true → ∀ y ∈ {x : List α | x.length = n ∧ ∀ a ∈ x, p a = true},
          b :: y ∈ {x : List α | x.length = n + 1 ∧ ∀ a ∈ x, p a = true} :=
        fun b hb y hy => ⟨congrArg (· + 1) hy.1, List.forall_mem_cons.2 ⟨hb, hy.2⟩⟩
      have hsplit : ∀ x y : List α, (∃ b, p b = true ∧ x = [b]) →
          y ∈ {x : List α | x.length = n ∧ ∀ a ∈ x, p a = true} →
          x ++ y ∈ {x : List α | x.length = n + 1 ∧ ∀ a ∈ x, p a = true} := by
        rintro _ y ⟨b, hb, rfl⟩ hy
        exact hone b hb y hy
      have hfirst : Ensures (satisfy p) fun x => ∃ b, p b = true ∧ x = [b] :=
        Ensures.satisfy fun b hb => ⟨b, hb, rfl⟩
      have hrest := power_satisfy ha n
      obtain ⟨y, hy⟩ := hrest.nonempty
      exact {
        accepted := hfirst.seq_of hrest.accepted hsplit
        promised := (Promises.satisfy ⟨a, ha, rfl⟩).seq_of hfirst hrest.promised hy hsplit
        nonempty := ⟨a :: y, hone a ha y hy⟩ }

/-- At least one element of a class. -/
theorem some_satisfy (ha : p a = true) : Confined (seq (satisfy p) (star (satisfy p)))
    {x | x ≠ [] ∧ ∀ a ∈ x, p a = true} := by
  have hrest : Confined (star (satisfy p)) {x | ∀ a ∈ x, p a = true} := star_satisfy
  have hfirst : Ensures (satisfy p) fun x => ∃ b, p b = true ∧ x = [b] :=
    Ensures.satisfy fun b hb => ⟨b, hb, rfl⟩
  have hsplit : ∀ x y : List α, (∃ b, p b = true ∧ x = [b]) → y ∈ {x : List α | ∀ a ∈ x, p a = true}
      → x ++ y ∈ {x : List α | x ≠ [] ∧ ∀ a ∈ x, p a = true} := by
    rintro _ y ⟨b, hb, rfl⟩ hy
    exact ⟨by simp, List.forall_mem_cons.2 ⟨hb, hy⟩⟩
  exact {
    accepted := hfirst.seq_of hrest.accepted hsplit
    promised := (Promises.satisfy ⟨a, ha, rfl⟩).seq_of hfirst hrest.promised (y := [])
      (fun a ha => absurd ha List.not_mem_nil) hsplit
    nonempty := ⟨[a], by simp, by simpa using ha⟩ }

/-- Where the texts of the language are read whatever follows, they are what is accepted, and their
proper beginnings are where more is asked for. -/
theorem exact (h : Confined f L) (hfinal : ∀ s t, f s ≠ incomplete → f (s ++ t) = f s)
    (hreads : ∀ x ∈ L, ∀ y, Reads f x y) (s : List α) :
    (∀ n, f s = accept n ↔ n ≤ s.length ∧ s.take n ∈ L) ∧
      (f s = incomplete ↔ ∃ x ∈ L, s <+: x ∧ s ≠ x) := by
  have haccept : ∀ x ∈ L, f x = accept x.length := by
    intro x hx
    have hx := hreads x hx []
    rwa [Reads, List.append_nil] at hx
  refine ⟨fun n => ⟨fun hn => ⟨le_length hn, h.accepted s n hn⟩, ?_⟩, ?_, ?_⟩
  · rintro ⟨hle, hmem⟩
    have hread := hreads _ hmem (s.drop n)
    rwa [Reads, List.take_append_drop, List.length_take, Nat.min_eq_left hle] at hread
  · intro hs
    obtain ⟨x, hx, hprefix⟩ := h.promised s hs
    refine ⟨x, hx, hprefix, ?_⟩
    rintro rfl
    rw [haccept s hx] at hs
    cases hs
  · rintro ⟨x, hx, ⟨t, rfl⟩, hne⟩
    by_contra hs
    have hle := le_length ((hfinal s t hs).symm.trans (haccept _ hx))
    rw [List.length_append] at hle
    have ht : t = [] := List.length_eq_zero_iff.1 (by omega)
    exact hne (by rw [ht, List.append_nil])

end Confined

/-! ### Elements that are not gone past -/

/-- In front of such an element `f` asks for no more, and leaves one of them. -/
def Halts (f : Recognizer α) (stop : α → Prop) : Prop := ∀ s, (∃ a ∈ s, stop a) →
  f s ≠ incomplete ∧ ∀ n, f s = accept n → ∃ a ∈ s.drop n, stop a

namespace Halts

variable {stop : α → Prop}

theorem eps : Halts eps stop := by
  intro s hs
  refine ⟨by simp, fun n hn => ?_⟩
  cases hn
  exact hs

theorem satisfy {p : α → Bool} (h : ∀ a, p a = true → ¬ stop a) : Halts (satisfy p) stop := by
  intro s hs
  cases s with
  | nil => simp at hs
  | cons a s =>
      rw [satisfy_cons]
      split_ifs with ha
      · refine ⟨by simp, fun n hn => ?_⟩
        cases hn
        obtain ⟨b, hb, hstop⟩ := hs
        rcases List.mem_cons.1 hb with rfl | hb
        · exact absurd hstop (h b ha)
        · exact ⟨b, hb, hstop⟩
      · exact ⟨by simp, fun n hn => by cases hn⟩

theorem seq (hf : Halts f stop) (hg : Halts g stop) : Halts (seq f g) stop := by
  intro s hs
  obtain ⟨hmore, hleaves⟩ := hf s hs
  cases hfs : f s with
  | accept n =>
      obtain ⟨hmore', hleaves'⟩ := hg (s.drop n) (hleaves n hfs)
      rw [seq_of_accept hfs]
      refine ⟨fun h => hmore' (advance_eq_incomplete.1 h), fun m hm => ?_⟩
      obtain ⟨k, hk, rfl⟩ := advance_eq_accept.1 hm
      rw [← List.drop_drop]
      exact hleaves' k hk
  | incomplete => exact absurd hfs hmore
  | reject =>
      rw [seq_of_reject hfs]
      exact ⟨by simp, fun m hm => by cases hm⟩

theorem alt (hf : Halts f stop) (hg : Halts g stop) : Halts (alt f g) stop := by
  intro s hs
  by_cases hfs : f s = reject
  · rw [alt_of_reject hfs]
    exact hg s hs
  · rw [alt_of_ne_reject hfs]
    exact hf s hs

theorem opt (hf : Halts f stop) : Halts (opt f) stop := hf.alt eps

theorem star (hf : Halts f stop) : Halts (star f) stop := by
  intro s
  induction hs : s.length using Nat.strongRecOn generalizing s with
  | ind len ih =>
      intro hstop
      obtain ⟨hmore, hleaves⟩ := hf s hstop
      rw [star_eq]
      cases hfs : f s with
      | accept k =>
          cases k with
          | zero => exact eps s hstop
          | succ k =>
              have hlt : (s.drop (k + 1)).length < len := by
                have hle := le_length hfs
                rw [List.length_drop]
                omega
              obtain ⟨hmore', hleaves'⟩ := ih _ hlt _ rfl (hleaves _ hfs)
              refine ⟨fun h => hmore' (advance_eq_incomplete.1 h), fun m hm => ?_⟩
              obtain ⟨j, hj, rfl⟩ := advance_eq_accept.1 hm
              rw [← List.drop_drop]
              exact hleaves' j hj
      | incomplete => exact absurd hfs hmore
      | reject => exact eps s hstop

end Halts

end Recognizer

/-! ### First occurrences -/

variable {α : Type} {b s : List α}

/-- `b` begins at none of the first `k` positions. -/
def Clear (b s : List α) (k : ℕ) : Prop := ∀ i < k, ¬ b <+: s.drop i

/-- `n` is the end of the first occurrence of `b`. -/
def FirstEnd (b s : List α) (n : ℕ) : Prop :=
  ∃ j, n = j + b.length ∧ b <+: s.drop j ∧ Clear b s j

theorem FirstEnd.shift {k n : ℕ} (hk : Clear b s k) (h : FirstEnd b (s.drop k) n) :
    FirstEnd b s (k + n) := by
  obtain ⟨j, rfl, hprefix, hclear⟩ := h
  rw [List.drop_drop] at hprefix
  refine ⟨k + j, (Nat.add_assoc k j _).symm, hprefix, fun i hi => ?_⟩
  by_cases hik : i < k
  · exact hk i hik
  · have hclear' := hclear (i - k) (by omega)
    rw [List.drop_drop] at hclear'
    rwa [Nat.add_sub_cancel' (Nat.le_of_not_lt hik)] at hclear'
