/-
**Parses that are begun again.**

A parse that asks for more is called again on a longer input, and does from the beginning what it
has done before.  What a parse does on an input is a list of operations; on the beginning of the
input it does operations of the same kinds, though perhaps not the same operations: a visitor that
is told of a failure may undo what it is going to do later.

Main definitions:

* `Hittop.Logs` — the operations of a parse, and when they add something to the state;
* `Hittop.Accepts`, `Hittop.Behind` — where the operations that add something are reached.

Main results:

* `Hittop.Logs.seq`, `Hittop.Logs.alt`, `Hittop.Logs.loop`, … — the combinators;
* `Hittop.Logs.through` — parses that work on a part of the state;
* `Hittop.Logs.collect` — a parse whose operations are collected into one.
-/

import Hittop.Effects
import Hittop.Library.Extension
import Hittop.Library.Journal

set_option relaxedAutoImplicit false
set_option autoImplicit false

namespace Hittop

open Meaning Exec
open Recognizer (Final)

variable {κ σ τ ω ι ω' ι' : Type}

/-! ### Where something is reached -/

/-- The recognizer accepts. -/
def Accepts (f : Recognizer κ) (s : List κ) : Prop := ∃ n, f s = .accept n

/-- `f` accepts, and the rest has the property. -/
def Behind (f : Recognizer κ) (D : List κ → Prop) (s : List κ) : Prop :=
  ∃ n, f s = .accept n ∧ D (s.drop n)

theorem behind_accepts {f g : Recognizer κ} {s : List κ} :
    Behind f (Accepts g) s ↔ Accepts (f.seq g) s := by
  constructor
  · rintro ⟨n, hn, k, hk⟩
    exact ⟨n + k, Recognizer.seq_eq_accept.2 ⟨n, k, hn, hk, rfl⟩⟩
  · rintro ⟨j, hj⟩
    obtain ⟨n, k, hn, hk, -⟩ := Recognizer.seq_eq_accept.1 hj
    exact ⟨n, hn, k, hk⟩

theorem behind_behind {f g : Recognizer κ} {D : List κ → Prop} {s : List κ} :
    Behind f (Behind g D) s ↔ Behind (f.seq g) D s := by
  constructor
  · rintro ⟨n, hn, k, hk, hD⟩
    rw [List.drop_drop] at hD
    exact ⟨n + k, Recognizer.seq_eq_accept.2 ⟨n, k, hn, hk, rfl⟩, hD⟩
  · rintro ⟨j, hj, hD⟩
    obtain ⟨n, k, hn, hk, rfl⟩ := Recognizer.seq_eq_accept.1 hj
    rw [← List.drop_drop] at hD
    exact ⟨n, hn, k, hk, hD⟩

theorem Behind.congr {f : Recognizer κ} {D D' : List κ → Prop} {s : List κ}
    (h : ∀ s, D s ↔ D' s) : Behind f D s ↔ Behind f D' s := by
  simp only [Behind, h]

theorem behind_of_accept {f : Recognizer κ} {D : List κ → Prop} {s : List κ} {n : ℕ}
    (hs : f s = .accept n) : Behind f D s ↔ D (s.drop n) := by
  constructor
  · rintro ⟨k, hk, hD⟩
    rw [hs] at hk
    cases hk
    exact hD
  · exact fun hD => ⟨n, hs, hD⟩

theorem not_behind {f : Recognizer κ} {D : List κ → Prop} {s : List κ}
    (hs : ∀ n, f s ≠ .accept n) : ¬ Behind f D s := by
  rintro ⟨n, hn, -⟩
  exact hs n hn

/-! ### Results that may be faults -/

theorem map_ok {α β : Type} {x : Except Fault α} {g : α → β} {b : β} (h : x.map g = .ok b) :
    ∃ a, x = .ok a ∧ b = g a := by
  cases x with
  | error e => cases h
  | ok a =>
      cases h
      exact ⟨a, rfl, rfl⟩

/-- What is done by two parses has been done by the one and by the other. -/
theorem append_ok {x y : Except Fault (List ω)} {ops : List ω}
    (h : (x.bind fun a => y.map fun b => a ++ b) = .ok ops) :
    ∃ a b, x = .ok a ∧ y = .ok b ∧ ops = a ++ b := by
  cases x with
  | error e => cases h
  | ok a =>
      cases y with
      | error e => cases h
      | ok b =>
          cases h
          exact ⟨a, b, rfl, rfl, rfl⟩

/-! ### The operations of a parse -/

/-- A parse does the operations that `log` lists.  Where its answer is final so are they, on the
beginning of an input they are covered by those on the input, and they add something to the state
exactly where `D` holds. -/
structure Logs (J : Journal ω ι σ) (m : Meaning κ σ) (f : Recognizer κ)
    (log : List κ → Except Fault (List ω)) (D : List κ → Prop) : Prop where
  run : ∀ s st, m s st = (log s).map fun ops => (f s, J.perform ops st)
  final : ∀ s t, f s ≠ .incomplete → f (s ++ t) = f s ∧ log (s ++ t) = log s
  covered : ∀ s t ops, log (s ++ t) = .ok ops → ∃ prior, log s = .ok prior ∧ J.Covered prior ops
  adds : ∀ s ops, log s = .ok ops → (J.Adds ops ↔ D s)

namespace Logs

variable {J : Journal ω ι σ} {m m' : Meaning κ σ} {f f' : Recognizer κ}
  {log log' : List κ → Except Fault (List ω)} {D D' : List κ → Prop} {s t : List κ} {st : σ}
  {a : List ω} {n : ℕ}

theorem congr (h : Logs J m f log D) (hD : ∀ s, D s ↔ D' s) : Logs J m f log D' :=
  ⟨h.run, h.final, h.covered, fun s ops hs => (h.adds s ops hs).trans (hD s)⟩

theorem run_ok (h : Logs J m f log D) (hs : log s = .ok a) (st : σ) :
    m s st = .ok (f s, J.perform a st) := by
  rw [h.run, hs]
  rfl

theorem run_error {e : Fault} (h : Logs J m f log D) (hs : log s = .error e) (st : σ) :
    m s st = .error e := by
  rw [h.run, hs]
  rfl

/-- Nothing need be shown about the beginnings of an input where the answer is final. -/
theorem of_incomplete
    (run : ∀ s st, m s st = (log s).map fun ops => (f s, J.perform ops st))
    (final : ∀ s t, f s ≠ .incomplete → f (s ++ t) = f s ∧ log (s ++ t) = log s)
    (covered : ∀ s t ops, f s = .incomplete → log (s ++ t) = .ok ops →
      ∃ prior, log s = .ok prior ∧ J.Covered prior ops)
    (adds : ∀ s ops, log s = .ok ops → (J.Adds ops ↔ D s)) : Logs J m f log D := by
  refine ⟨run, final, fun s t ops hops => ?_, adds⟩
  by_cases hs : f s = .incomplete
  · exact covered s t ops hs hops
  · rw [(final s t hs).2] at hops
    exact ⟨ops, hops, .refl ops⟩

theorem drop_append (hn : f s = .accept n) (t : List κ) : (s ++ t).drop n = s.drop n ++ t :=
  List.drop_append_of_le_length (Recognizer.le_length hn)

theorem take_append (hn : f s = .accept n) (t : List κ) : (s ++ t).take n = s.take n :=
  List.take_append_of_le_length (Recognizer.le_length hn)

/-- A parse that does nothing. -/
theorem lift (hf : Final f) : Logs J (Meaning.lift f) f (fun _ => .ok []) fun _ => False where
  run _ _ := rfl
  final s t hs := ⟨hf s t hs, rfl⟩
  covered _ _ _ _ := ⟨[], rfl, .nil⟩
  adds s ops hs := by
    cases hs
    simp

theorem ne_accept_of_reject (hs : f s = .reject) (n : ℕ) : f s ≠ .accept n := by simp [hs]

theorem ne_accept_of_incomplete (hs : f s = .incomplete) (n : ℕ) : f s ≠ .accept n := by simp [hs]

/-- One thing where a text is accepted, and another where none is. -/
def onAccept {β : Type} (f : Recognizer κ) (yes : ℕ → β) (no : β) (s : List κ) : β :=
  match f s with
  | .accept n => yes n
  | _ => no

theorem onAccept_of_accept {β : Type} {yes : ℕ → β} {no : β} (hs : f s = .accept n) :
    onAccept f yes no s = yes n := by
  rw [onAccept, hs]

theorem onAccept_of_ne_accept {β : Type} {yes : ℕ → β} {no : β} (hs : ∀ n, f s ≠ .accept n) :
    onAccept f yes no s = no := by
  rw [onAccept]
  cases hf : f s with
  | accept n => exact absurd hf (hs n)
  | incomplete => rfl
  | reject => rfl

/-- The operations of two parses, one behind the other. -/
def seqLog (f : Recognizer κ) (log log' : List κ → Except Fault (List ω)) (s : List κ) :
    Except Fault (List ω) :=
  onAccept f (fun n => (log s).bind fun a => (log' (s.drop n)).map fun b => a ++ b) (log s) s

theorem seqLog_of_accept (hs : f s = .accept n) :
    seqLog f log log' s = (log s).bind fun a => (log' (s.drop n)).map fun b => a ++ b :=
  onAccept_of_accept hs

theorem seqLog_of_ne_accept (hs : ∀ n, f s ≠ .accept n) : seqLog f log log' s = log s :=
  onAccept_of_ne_accept hs

theorem seq_run (h : Logs J m f log D) (h' : Logs J m' f' log' D') (s : List κ) (st : σ) :
    m.seq m' s st = (seqLog f log log' s).map fun ops => (f.seq f' s, J.perform ops st) := by
  cases hlog : log s with
  | error e =>
      have hseq : seqLog f log log' s = .error e := by
        rw [seqLog, onAccept]
        cases f s <;> simp only [hlog, Except.bind]
      rw [hseq, seq_of_error (h.run_error hlog st)]
      rfl
  | ok a =>
      have hrun := h.run_ok hlog st
      cases hfs : f s with
      | accept n =>
          rw [hfs] at hrun
          rw [seqLog_of_accept hfs, hlog, Recognizer.seq_of_accept hfs]
          cases hlog' : log' (s.drop n) with
          | error e =>
              rw [seq_of_accept hrun, bind_of_error (h'.run_error hlog' _)]
              rfl
          | ok b =>
              rw [seq_ok hrun (h'.run_ok hlog' _), ← J.perform_append]
              rfl
      | incomplete =>
          rw [hfs] at hrun
          rw [seqLog_of_ne_accept (ne_accept_of_incomplete hfs), hlog, seq_of_incomplete hrun,
            Recognizer.seq_of_incomplete hfs]
          rfl
      | reject =>
          rw [hfs] at hrun
          rw [seqLog_of_ne_accept (ne_accept_of_reject hfs), hlog, seq_of_reject hrun,
            Recognizer.seq_of_reject hfs]
          rfl

theorem seq_final (h : Logs J m f log D) (h' : Logs J m' f' log' D') (s t : List κ)
    (hs : f.seq f' s ≠ .incomplete) :
    f.seq f' (s ++ t) = f.seq f' s ∧ seqLog f log log' (s ++ t) = seqLog f log log' s := by
  cases hfs : f s with
  | incomplete => exact absurd (Recognizer.seq_of_incomplete hfs) hs
  | reject =>
      obtain ⟨hst, hlog⟩ := h.final s t (by simp [hfs])
      rw [hfs] at hst
      rw [Recognizer.seq_of_reject hfs, Recognizer.seq_of_reject hst,
        seqLog_of_ne_accept (ne_accept_of_reject hfs),
        seqLog_of_ne_accept (ne_accept_of_reject hst)]
      exact ⟨rfl, hlog⟩
  | accept n =>
      obtain ⟨hst, hlog⟩ := h.final s t (by simp [hfs])
      rw [hfs] at hst
      have hrest : f' (s.drop n) ≠ .incomplete :=
        fun hinc => hs ((Recognizer.seq_eq_incomplete_of_accept hfs).2 hinc)
      obtain ⟨hst', hlog'⟩ := h'.final (s.drop n) t hrest
      rw [Recognizer.seq_of_accept hfs, Recognizer.seq_of_accept hst, seqLog_of_accept hfs,
        seqLog_of_accept hst, drop_append hfs, hst', hlog, hlog']
      exact ⟨rfl, rfl⟩

theorem seq_covered (h : Logs J m f log D) (h' : Logs J m' f' log' D') (s t : List κ)
    (ops : List ω) (hs : f.seq f' s = .incomplete) (hops : seqLog f log log' (s ++ t) = .ok ops) :
    ∃ prior, seqLog f log log' s = .ok prior ∧ J.Covered prior ops := by
  cases hfs : f s with
  | reject =>
      rw [Recognizer.seq_of_reject hfs] at hs
      cases hs
  | incomplete =>
      -- only the first parse has begun
      rw [seqLog_of_ne_accept (ne_accept_of_incomplete hfs)]
      by_cases hst : ∃ n, f (s ++ t) = .accept n
      · obtain ⟨n, hst⟩ := hst
        rw [seqLog_of_accept hst] at hops
        obtain ⟨a, b, ha, -, rfl⟩ := append_ok hops
        obtain ⟨prior, hprior, hcovered⟩ := h.covered s t a ha
        exact ⟨prior, hprior, hcovered.append_right b⟩
      · rw [seqLog_of_ne_accept fun n hn => hst ⟨n, hn⟩] at hops
        exact h.covered s t ops hops
  | accept n =>
      obtain ⟨hst, hlog⟩ := h.final s t (by simp [hfs])
      rw [seqLog_of_accept (hst.trans hfs), drop_append hfs, hlog] at hops
      obtain ⟨a, b, ha, hb, rfl⟩ := append_ok hops
      obtain ⟨prior, hprior, hcovered⟩ := h'.covered (s.drop n) t b hb
      refine ⟨a ++ prior, ?_, (Journal.Covered.refl a).append hcovered⟩
      rw [seqLog_of_accept hfs, ha, hprior]
      rfl

theorem seq_adds (h : Logs J m f log D) (h' : Logs J m' f' log' D') (s : List κ) (ops : List ω)
    (hops : seqLog f log log' s = .ok ops) : J.Adds ops ↔ D s ∨ Behind f D' s := by
  by_cases hfs : ∃ n, f s = .accept n
  · obtain ⟨n, hfs⟩ := hfs
    rw [seqLog_of_accept hfs] at hops
    obtain ⟨a, b, ha, hb, rfl⟩ := append_ok hops
    rw [J.adds_append, h.adds s a ha, h'.adds _ b hb, behind_of_accept hfs]
  · have hno : ∀ n, f s ≠ .accept n := fun n hn => hfs ⟨n, hn⟩
    rw [seqLog_of_ne_accept hno] at hops
    rw [h.adds s ops hops, iff_self_or]
    exact fun hD => absurd hD (not_behind hno)

/-- **A sequence.** -/
theorem seq (h : Logs J m f log D) (h' : Logs J m' f' log' D') :
    Logs J (m.seq m') (f.seq f') (seqLog f log log') fun s => D s ∨ Behind f D' s :=
  of_incomplete (seq_run h h') (seq_final h h') (seq_covered h h') (seq_adds h h')

/-- The operations of two parses, where the second is begun when the first rejects. -/
def altLog (f : Recognizer κ) (log log' : List κ → Except Fault (List ω)) (s : List κ) :
    Except Fault (List ω) :=
  match f s with
  | .reject => (log s).bind fun a => (log' s).map fun b => a ++ b
  | _ => log s

theorem altLog_of_reject (hs : f s = .reject) :
    altLog f log log' s = (log s).bind fun a => (log' s).map fun b => a ++ b := by
  rw [altLog, hs]

theorem altLog_of_ne_reject (hs : f s ≠ .reject) : altLog f log log' s = log s := by
  rw [altLog]
  cases hf : f s with
  | reject => exact absurd hf hs
  | accept n => rfl
  | incomplete => rfl

theorem alt_run (h : Logs J m f log D) (h' : Logs J m' f' log' D') (s : List κ) (st : σ) :
    m.alt m' s st = (altLog f log log' s).map fun ops => (f.alt f' s, J.perform ops st) := by
  cases hlog : log s with
  | error e =>
      have halt : altLog f log log' s = .error e := by
        rw [altLog]
        cases f s <;> simp only [hlog, Except.bind]
      rw [halt, alt_of_error (h.run_error hlog st)]
      rfl
  | ok a =>
      have hrun := h.run_ok hlog st
      cases hfs : f s with
      | reject =>
          rw [hfs] at hrun
          rw [altLog_of_reject hfs, hlog, Recognizer.alt_of_reject hfs, alt_of_reject hrun, h'.run]
          cases hlog' : log' s with
          | error e => rfl
          | ok b =>
              simp only [Except.map, Except.bind, J.perform_append]
      | accept n =>
          rw [hfs] at hrun
          rw [altLog_of_ne_reject (by simp [hfs]), hlog,
            Recognizer.alt_of_ne_reject (by simp [hfs]), hfs, alt_of_accept hrun]
          rfl
      | incomplete =>
          rw [hfs] at hrun
          rw [altLog_of_ne_reject (by simp [hfs]), hlog, Recognizer.alt_of_incomplete hfs,
            alt_of_incomplete hrun]
          rfl

theorem alt_final (h : Logs J m f log D) (h' : Logs J m' f' log' D') (s t : List κ)
    (hs : f.alt f' s ≠ .incomplete) :
    f.alt f' (s ++ t) = f.alt f' s ∧ altLog f log log' (s ++ t) = altLog f log log' s := by
  have hfs : f s ≠ .incomplete := fun hinc => hs (Recognizer.alt_of_incomplete hinc)
  obtain ⟨hst, hlog⟩ := h.final s t hfs
  by_cases hreject : f s = .reject
  · rw [Recognizer.alt_of_reject hreject] at hs
    obtain ⟨hst', hlog'⟩ := h'.final s t hs
    rw [hreject] at hst
    rw [Recognizer.alt_of_reject hreject, Recognizer.alt_of_reject hst,
      altLog_of_reject hreject, altLog_of_reject hst, hst', hlog, hlog']
    exact ⟨rfl, rfl⟩
  · have hne : f (s ++ t) ≠ .reject := hst ▸ hreject
    rw [Recognizer.alt_of_ne_reject hreject, Recognizer.alt_of_ne_reject hne,
      altLog_of_ne_reject hreject, altLog_of_ne_reject hne]
    exact ⟨hst, hlog⟩

theorem alt_covered (h : Logs J m f log D) (h' : Logs J m' f' log' D') (s t : List κ)
    (ops : List ω) (hops : altLog f log log' (s ++ t) = .ok ops) :
    ∃ prior, altLog f log log' s = .ok prior ∧ J.Covered prior ops := by
  by_cases hreject : f s = .reject
  · obtain ⟨hst, hlog⟩ := h.final s t (by simp [hreject])
    rw [altLog_of_reject (hst.trans hreject), hlog] at hops
    obtain ⟨a, b, ha, hb, rfl⟩ := append_ok hops
    obtain ⟨prior, hprior, hcovered⟩ := h'.covered s t b hb
    refine ⟨a ++ prior, ?_, (Journal.Covered.refl a).append hcovered⟩
    rw [altLog_of_reject hreject, ha, hprior]
    rfl
  · rw [altLog_of_ne_reject hreject]
    by_cases hst : f (s ++ t) = .reject
    · rw [altLog_of_reject hst] at hops
      obtain ⟨a, b, ha, -, rfl⟩ := append_ok hops
      obtain ⟨prior, hprior, hcovered⟩ := h.covered s t a ha
      exact ⟨prior, hprior, hcovered.append_right b⟩
    · rw [altLog_of_ne_reject hst] at hops
      exact h.covered s t ops hops

theorem alt_adds (h : Logs J m f log D) (h' : Logs J m' f' log' D') (s : List κ) (ops : List ω)
    (hops : altLog f log log' s = .ok ops) : J.Adds ops ↔ D s ∨ f s = .reject ∧ D' s := by
  by_cases hreject : f s = .reject
  · rw [altLog_of_reject hreject] at hops
    obtain ⟨a, b, ha, hb, rfl⟩ := append_ok hops
    rw [J.adds_append, h.adds s a ha, h'.adds s b hb]
    exact or_congr_right (and_iff_right hreject).symm
  · rw [altLog_of_ne_reject hreject] at hops
    rw [h.adds s ops hops, iff_self_or]
    exact fun hD => absurd hD.1 hreject

/-- **Ordered choice.** -/
theorem alt (h : Logs J m f log D) (h' : Logs J m' f' log' D') :
    Logs J (m.alt m') (f.alt f') (altLog f log log') fun s => D s ∨ f s = .reject ∧ D' s :=
  ⟨alt_run h h', alt_final h h', alt_covered h h', alt_adds h h'⟩

theorem final_eps : Final (Recognizer.eps : Recognizer κ) := fun _ _ _ => rfl

/-- **A part that may be missing.** -/
theorem opt (h : Logs J m f log D) :
    Logs J m.opt f.opt (altLog f log fun _ => .ok []) D :=
  (h.alt (lift final_eps)).congr fun s => by simp

/-- The operations of a loop. -/
def loopLog (f : Recognizer κ) (log : List κ → Except Fault (List ω)) (s : List κ) :
    Except Fault (List ω) :=
  match hs : f s with
  | .accept (n + 1) =>
      have := Recognizer.le_length hs
      (log s).bind fun a => (loopLog f log (s.drop (n + 1))).map fun b => a ++ b
  | _ => log s
termination_by s.length
decreasing_by
  rw [List.length_drop]
  omega

theorem loopLog_of_accept (hs : f s = .accept (n + 1)) :
    loopLog f log s =
      (log s).bind fun a => (loopLog f log (s.drop (n + 1))).map fun b => a ++ b := by
  rw [loopLog]
  split
  · next k hk =>
      rw [hs, Verdict.accept.injEq, Nat.add_right_cancel_iff] at hk
      subst hk
      rfl
  · next hno => exact absurd hs (hno n)

theorem loopLog_of_stop (hs : ∀ n, f s ≠ .accept (n + 1)) : loopLog f log s = log s := by
  rw [loopLog]
  split
  · next k hk => exact absurd hk (hs k)
  · rfl

theorem bounded (h : Logs J m f log D) : m.Bounded := by
  intro s st n st' hm
  cases hlog : log s with
  | error e =>
      rw [h.run_error hlog] at hm
      cases hm
  | ok a =>
      rw [h.run_ok hlog] at hm
      cases hfs : f s with
      | accept k =>
          rw [hfs] at hm
          cases hm
          exact Recognizer.le_length hfs
      | incomplete =>
          rw [hfs] at hm
          cases hm
      | reject =>
          rw [hfs] at hm
          cases hm

/-- An answer after which the loop goes on, or not. -/
theorem accept_succ_or (f : Recognizer κ) (s : List κ) :
    (∃ n, f s = .accept (n + 1)) ∨ ∀ n, f s ≠ .accept (n + 1) := by
  by_cases h : ∃ n, f s = .accept (n + 1)
  · exact .inl h
  · exact .inr fun n hn => h ⟨n, hn⟩

theorem drop_lt (hs : f s = .accept (n + 1)) : (s.drop (n + 1)).length < s.length := by
  have hle := Recognizer.le_length hs
  rw [List.length_drop]
  omega

theorem loop_run (h : Logs J m f log D) (s : List κ) (st : σ) :
    m.loop s st = (loopLog f log s).map fun ops => (f.star s, J.perform ops st) := by
  induction hn : s.length using Nat.strongRecOn generalizing s st with
  | ind N ih =>
      rw [Meaning.loop_eq h.bounded]
      cases hlog : log s with
      | error e =>
          have hloop : loopLog f log s = .error e := by
            rcases accept_succ_or f s with ⟨n, hs⟩ | hs
            · rw [loopLog_of_accept hs, hlog]
              rfl
            · rw [loopLog_of_stop hs, hlog]
          rw [hloop, turn, bind_of_error (h.run_error hlog st)]
          rfl
      | ok a =>
          have hrun := h.run_ok hlog st
          rcases accept_succ_or f s with ⟨n, hs⟩ | hs
          · rw [hs] at hrun
            rw [turn_of_accept hrun (Nat.succ_pos n), loopLog_of_accept hs, hlog,
              Recognizer.star_of_accept hs (Nat.succ_pos n)]
            have hrest := ih _ (hn ▸ drop_lt hs) (s.drop (n + 1)) (J.perform a st) rfl
            cases hlog' : loopLog f log (s.drop (n + 1)) with
            | error e =>
                rw [hlog'] at hrest
                rw [bind_of_error hrest]
                rfl
            | ok b =>
                rw [hlog'] at hrest
                rw [bind_of_ok hrest]
                simp only [Except.map, Except.bind, J.perform_append]
                rfl
          · rw [loopLog_of_stop hs, hlog, turn, bind_of_ok hrun, Recognizer.star_eq]
            cases hfs : f s with
            | accept k =>
                cases k with
                | zero => rfl
                | succ k => exact absurd hfs (hs k)
            | incomplete => rfl
            | reject => rfl

/-- Where the loop stops, it depends on the answer alone. -/
theorem star_congr_of_stop {s' : List κ} (hs : ∀ n, f s ≠ .accept (n + 1)) (h : f s' = f s) :
    f.star s' = f.star s := by
  rw [Recognizer.star_eq, Recognizer.star_eq f s, h]
  cases hv : f s with
  | accept k =>
      cases k with
      | zero => rfl
      | succ k => exact absurd hv (hs k)
  | incomplete => rfl
  | reject => rfl

theorem loop_final (h : Logs J m f log D) (s t : List κ) (hs : f.star s ≠ .incomplete) :
    f.star (s ++ t) = f.star s ∧ loopLog f log (s ++ t) = loopLog f log s := by
  induction hn : s.length using Nat.strongRecOn generalizing s with
  | ind N ih =>
      have hfs : f s ≠ .incomplete := fun hinc => hs (Recognizer.star_of_incomplete hinc)
      obtain ⟨hst, hlog⟩ := h.final s t hfs
      rcases accept_succ_or f s with ⟨n, haccept⟩ | hstop
      · rw [haccept] at hst
        rw [Recognizer.star_of_accept haccept (Nat.succ_pos n)] at hs
        have hrest : f.star (s.drop (n + 1)) ≠ .incomplete := by
          intro hinc
          rw [hinc] at hs
          exact hs rfl
        obtain ⟨hst', hlog'⟩ := ih _ (hn ▸ drop_lt haccept) (s.drop (n + 1)) hrest rfl
        rw [Recognizer.star_of_accept haccept (Nat.succ_pos n),
          Recognizer.star_of_accept hst (Nat.succ_pos n), loopLog_of_accept haccept,
          loopLog_of_accept hst, drop_append haccept, hst', hlog, hlog']
        exact ⟨rfl, rfl⟩
      · have hstop' : ∀ n, f (s ++ t) ≠ .accept (n + 1) := hst ▸ hstop
        rw [loopLog_of_stop hstop, loopLog_of_stop hstop']
        exact ⟨star_congr_of_stop hstop hst, hlog⟩

theorem loop_covered (h : Logs J m f log D) (s t : List κ) (ops : List ω)
    (hs : f.star s = .incomplete) (hops : loopLog f log (s ++ t) = .ok ops) :
    ∃ prior, loopLog f log s = .ok prior ∧ J.Covered prior ops := by
  induction hn : s.length using Nat.strongRecOn generalizing s ops with
  | ind N ih =>
      rcases accept_succ_or f s with ⟨n, haccept⟩ | hstop
      · obtain ⟨hst, hlog⟩ := h.final s t (by simp [haccept])
        rw [loopLog_of_accept (hst.trans haccept), drop_append haccept, hlog] at hops
        obtain ⟨a, b, ha, hb, rfl⟩ := append_ok hops
        rw [Recognizer.star_of_accept haccept (Nat.succ_pos n),
          Verdict.advance_eq_incomplete] at hs
        obtain ⟨prior, hprior, hcovered⟩ :=
          ih _ (hn ▸ drop_lt haccept) (s.drop (n + 1)) b hs hb rfl
        refine ⟨a ++ prior, ?_, (Journal.Covered.refl a).append hcovered⟩
        rw [loopLog_of_accept haccept, ha, hprior]
        rfl
      · rw [loopLog_of_stop hstop]
        rcases accept_succ_or f (s ++ t) with ⟨n, haccept⟩ | hstop'
        · rw [loopLog_of_accept haccept] at hops
          obtain ⟨a, b, ha, -, rfl⟩ := append_ok hops
          obtain ⟨prior, hprior, hcovered⟩ := h.covered s t a ha
          exact ⟨prior, hprior, hcovered.append_right b⟩
        · rw [loopLog_of_stop hstop'] at hops
          exact h.covered s t ops hops

theorem loop_adds (h : Logs J m f log D) (hD : ∀ s n, f s = .accept n → D s) (s : List κ)
    (ops : List ω) (hops : loopLog f log s = .ok ops) : J.Adds ops ↔ D s := by
  rcases accept_succ_or f s with ⟨n, haccept⟩ | hstop
  · rw [loopLog_of_accept haccept] at hops
    obtain ⟨a, b, ha, -, rfl⟩ := append_ok hops
    have hDs := hD s _ haccept
    rw [J.adds_append, h.adds s a ha]
    exact iff_of_true (.inl hDs) hDs
  · rw [loopLog_of_stop hstop] at hops
    exact h.adds s ops hops

/-- **A loop** whose turns add something whenever they accept. -/
theorem loop (h : Logs J m f log D) (hD : ∀ s n, f s = .accept n → D s) :
    Logs J m.loop f.star (loopLog f log) D :=
  of_incomplete (loop_run h) (loop_final h) (loop_covered h) (loop_adds h hD)

/-- The operations of a parse, and those on the text that it accepts. -/
def finishLog (f : Recognizer κ) (log : List κ → Except Fault (List ω))
    (accepted : List κ → Except Fault (List ω)) (s : List κ) : Except Fault (List ω) :=
  onAccept f (fun n => (log s).bind fun a => (accepted (s.take n)).map fun b => a ++ b) (log s) s

theorem finishLog_of_accept {accepted : List κ → Except Fault (List ω)} (hs : f s = .accept n) :
    finishLog f log accepted s =
      (log s).bind fun a => (accepted (s.take n)).map fun b => a ++ b :=
  onAccept_of_accept hs

theorem finishLog_of_ne_accept {accepted : List κ → Except Fault (List ω)}
    (hs : ∀ n, f s ≠ .accept n) : finishLog f log accepted s = log s :=
  onAccept_of_ne_accept hs

theorem finish_run {accepted : List κ → σ → Except Fault σ}
    {accepted' : List κ → Except Fault (List ω)} (h : Logs J m f log D)
    (ha : ∀ text st, accepted text st = (accepted' text).map fun ops => J.perform ops st)
    (s : List κ) (st : σ) : m.finish accepted id s st =
      (finishLog f log accepted' s).map fun ops => (f s, J.perform ops st) := by
  cases hlog : log s with
  | error e =>
      have hfinish : finishLog f log accepted' s = .error e := by
        rw [finishLog, onAccept]
        cases f s <;> simp only [hlog, Except.bind]
      rw [hfinish, Meaning.finish, bind_of_error (h.run_error hlog st)]
      rfl
  | ok a =>
      rw [Meaning.finish, bind_of_ok (h.run_ok hlog st)]
      cases hfs : f s with
      | accept n =>
          rw [finishLog_of_accept hfs, hlog]
          simp only [ha]
          cases accepted' (s.take n) with
          | error e => rfl
          | ok b => simp only [Except.map, Except.bind, J.perform_append]
      | incomplete =>
          rw [finishLog_of_ne_accept (ne_accept_of_incomplete hfs), hlog]
          rfl
      | reject =>
          rw [finishLog_of_ne_accept (ne_accept_of_reject hfs), hlog]
          rfl

/-- **A visitor** that does operations on the text that is accepted. -/
theorem finish {accepted : List κ → σ → Except Fault σ} {accepted' : List κ → Except Fault (List ω)}
    (h : Logs J m f log D)
    (ha : ∀ text st, accepted text st = (accepted' text).map fun ops => J.perform ops st) :
    Logs J (m.finish accepted id) f (finishLog f log accepted') fun s =>
      D s ∨ ∃ n ops, f s = .accept n ∧ accepted' (s.take n) = .ok ops ∧ J.Adds ops := by
  refine of_incomplete (finish_run h ha) (fun s t hs => ?_) (fun s t ops hs hops => ?_)
    fun s ops hops => ?_
  · obtain ⟨hst, hlog⟩ := h.final s t hs
    refine ⟨hst, ?_⟩
    cases hfs : f s with
    | incomplete => exact absurd hfs hs
    | accept n =>
        rw [finishLog_of_accept hfs, finishLog_of_accept (hst.trans hfs), take_append hfs, hlog]
    | reject =>
        rw [finishLog_of_ne_accept (ne_accept_of_reject hfs),
          finishLog_of_ne_accept (ne_accept_of_reject (hst.trans hfs)), hlog]
  · rw [finishLog_of_ne_accept (ne_accept_of_incomplete hs)]
    by_cases hst : ∃ n, f (s ++ t) = .accept n
    · obtain ⟨n, hst⟩ := hst
      rw [finishLog_of_accept hst] at hops
      obtain ⟨a, b, ha, -, rfl⟩ := append_ok hops
      obtain ⟨prior, hprior, hcovered⟩ := h.covered s t a ha
      exact ⟨prior, hprior, hcovered.append_right b⟩
    · rw [finishLog_of_ne_accept fun n hn => hst ⟨n, hn⟩] at hops
      exact h.covered s t ops hops
  · by_cases hfs : ∃ n, f s = .accept n
    · obtain ⟨n, hfs⟩ := hfs
      rw [finishLog_of_accept hfs] at hops
      obtain ⟨a, b, ha', hb, rfl⟩ := append_ok hops
      rw [J.adds_append, h.adds s a ha']
      simp [hfs, hb]
    · rw [finishLog_of_ne_accept fun n hn => hfs ⟨n, hn⟩] at hops
      rw [h.adds s ops hops, iff_self_or]
      rintro ⟨n, -, hn, -⟩
      exact absurd ⟨n, hn⟩ hfs

/-- **A parse that works on a part of the state.** -/
theorem through {p : Pointer τ σ} {J' : Journal ω' ι' τ} {e : ω → ω'} (h : Logs J m f log D)
    (hstep : ∀ o t, J'.step (e o) t = p.set (J.step o (p.get t)) t)
    (hkind : ∀ o o', J.kind o = J.kind o' → J'.kind (e o) = J'.kind (e o'))
    (hweight : ∀ o, J'.weight (e o) = J.weight o) :
    Logs J' (m.through p) f (fun s => (log s).map (List.map e)) D := by
  have hperform (ops : List ω) (t : τ) :
      J'.perform (ops.map e) t = p.set (J.perform ops (p.get t)) t := by
    induction ops generalizing t with
    | nil => simp
    | cons o ops ih => simp [ih, hstep]
  have hcovered {prior ops : List ω} (h : J.Covered prior ops) :
      J'.Covered (prior.map e) (ops.map e) := by
    intro o ho
    obtain ⟨a, ha, rfl⟩ := List.mem_map.1 ho
    obtain ⟨b, hb, hab⟩ := h a ha
    exact ⟨e b, List.mem_map_of_mem hb, hkind b a hab⟩
  refine of_incomplete (fun s t => ?_) (fun s t hs => ?_) (fun s t ops _ hops => ?_)
    fun s ops hops => ?_
  · rw [Meaning.through, Exec.through, h.run]
    cases log s with
    | error e => rfl
    | ok a => simp only [Except.map, hperform]
  · obtain ⟨hst, hlog⟩ := h.final s t hs
    exact ⟨hst, by rw [hlog]⟩
  · obtain ⟨a, ha, rfl⟩ := map_ok hops
    obtain ⟨prior, hprior, hprior'⟩ := h.covered s t a ha
    exact ⟨prior.map e, by rw [hprior]; rfl, hcovered hprior'⟩
  · obtain ⟨a, ha, rfl⟩ := map_ok hops
    rw [← h.adds s a ha, Journal.Adds, Journal.Adds]
    simp [hweight]

/-- One operation for all that is done behind an accepted text. -/
def collectLog (f : Recognizer κ) (log : List κ → Except Fault (List ω'))
    (c : List κ → List ω' → ω) (s : List κ) : Except Fault (List ω) :=
  onAccept f (fun n => (log (s.drop n)).map fun ops => [c (s.take n) ops]) (.ok [c [] []]) s

theorem collectLog_of_accept {log : List κ → Except Fault (List ω')} {c : List κ → List ω' → ω}
    (hs : f s = .accept n) :
    collectLog f log c s = (log (s.drop n)).map fun ops => [c (s.take n) ops] :=
  onAccept_of_accept hs

theorem collectLog_of_ne_accept {log : List κ → Except Fault (List ω')} {c : List κ → List ω' → ω}
    (hs : ∀ n, f s ≠ .accept n) : collectLog f log c s = .ok [c [] []] :=
  onAccept_of_ne_accept hs

section

variable {J₀ : Journal ω' ι' σ} {log : List κ → Except Fault (List ω')} {part : List κ → σ → σ}
  {before : σ → σ} {c : List κ → List ω' → ω}

theorem collect_run (h : Logs J₀ m f' log D)
    (hstep : ∀ text ops st, J.step (c text ops) st = J₀.perform ops (part text (before st)))
    (hempty : ∀ st, part [] (before st) = before st) (s : List κ) (st : σ) :
    ((Meaning.record f part).seq m).after before s st =
      (collectLog f log c s).map fun ops => (f.seq f' s, J.perform ops st) := by
  have hnone : J.perform [c [] []] st = before st := by
    rw [J.perform_cons, hstep, hempty]
    rfl
  change (Meaning.record f part).seq m s (before st) = _
  cases hfs : f s with
  | accept n =>
      rw [collectLog_of_accept hfs, seq_of_accept (record_of_accept hfs _),
        Recognizer.seq_of_accept hfs]
      cases hlog : log (s.drop n) with
      | error e =>
          rw [bind_of_error (h.run_error hlog _)]
          rfl
      | ok b =>
          rw [bind_of_ok (h.run_ok hlog _), ← hstep]
          rfl
  | incomplete =>
      rw [collectLog_of_ne_accept (ne_accept_of_incomplete hfs),
        seq_of_incomplete (record_of_incomplete hfs _), Recognizer.seq_of_incomplete hfs,
        ← hnone]
      rfl
  | reject =>
      rw [collectLog_of_ne_accept (ne_accept_of_reject hfs),
        seq_of_reject (record_of_reject hfs _), Recognizer.seq_of_reject hfs, ← hnone]
      rfl

/-- In any case one operation is done. -/
theorem exists_collected {s : List κ} {ops : List ω} (hops : collectLog f log c s = .ok ops) :
    ∃ text ops', ops = [c text ops'] := by
  by_cases hfs : ∃ n, f s = .accept n
  · obtain ⟨n, hfs⟩ := hfs
    rw [collectLog_of_accept hfs] at hops
    obtain ⟨a, -, rfl⟩ := map_ok hops
    exact ⟨_, _, rfl⟩
  · rw [collectLog_of_ne_accept fun n hn => hfs ⟨n, hn⟩] at hops
    cases hops
    exact ⟨_, _, rfl⟩

/-- **A parse whose operations are collected into one**, together with the text before them. -/
theorem collect (hf : Final f) (h : Logs J₀ m f' log D)
    (hstep : ∀ text ops st, J.step (c text ops) st = J₀.perform ops (part text (before st)))
    (hempty : ∀ st, part [] (before st) = before st)
    (hkind : ∀ text ops text' ops', J.kind (c text ops) = J.kind (c text' ops'))
    (hweight : ∀ text ops, J.weight (c text ops) ≠ 0 ↔ J₀.Adds ops) :
    Logs J (((Meaning.record f part).seq m).after before) (f.seq f') (collectLog f log c)
      (Behind f D) := by
  have hcovered (text text' : List κ) (ops ops' : List ω') :
      J.Covered [c text ops] [c text' ops'] :=
    Journal.Covered.cons (hkind _ _ _ _) .nil
  refine of_incomplete (collect_run h hstep hempty) (fun s t hs => ?_) (fun s t ops hs hops => ?_)
    fun s ops hops => ?_
  · cases hfs : f s with
    | incomplete => exact absurd (Recognizer.seq_of_incomplete hfs) hs
    | reject =>
        have hst := (hf s t (by simp [hfs])).trans hfs
        rw [Recognizer.seq_of_reject hfs, Recognizer.seq_of_reject hst,
          collectLog_of_ne_accept (ne_accept_of_reject hfs),
          collectLog_of_ne_accept (ne_accept_of_reject hst)]
        exact ⟨rfl, rfl⟩
    | accept n =>
        have hst := (hf s t (by simp [hfs])).trans hfs
        have hrest : f' (s.drop n) ≠ .incomplete :=
          fun hinc => hs ((Recognizer.seq_eq_incomplete_of_accept hfs).2 hinc)
        obtain ⟨hst', hlog⟩ := h.final (s.drop n) t hrest
        rw [Recognizer.seq_of_accept hfs, Recognizer.seq_of_accept hst, collectLog_of_accept hfs,
          collectLog_of_accept hst, drop_append hfs, take_append hfs, hst', hlog]
        exact ⟨rfl, rfl⟩
  · obtain ⟨text, ops', rfl⟩ := exists_collected hops
    cases hfs : f s with
    | reject =>
        rw [Recognizer.seq_of_reject hfs] at hs
        cases hs
    | incomplete =>
        exact ⟨_, collectLog_of_ne_accept (ne_accept_of_incomplete hfs), hcovered _ _ _ _⟩
    | accept n =>
        have hst := (hf s t (by simp [hfs])).trans hfs
        rw [collectLog_of_accept hst, drop_append hfs] at hops
        obtain ⟨b, hb, -⟩ := map_ok hops
        obtain ⟨prior, hprior, -⟩ := h.covered (s.drop n) t b hb
        refine ⟨[c (s.take n) prior], ?_, hcovered _ _ _ _⟩
        rw [collectLog_of_accept hfs, hprior]
        rfl
  · by_cases hfs : ∃ n, f s = .accept n
    · obtain ⟨n, hfs⟩ := hfs
      rw [collectLog_of_accept hfs] at hops
      obtain ⟨b, hb, rfl⟩ := map_ok hops
      rw [behind_of_accept hfs, ← h.adds _ b hb, J.adds_cons, hweight]
      simp
    · have hno : ∀ n, f s ≠ .accept n := fun n hn => hfs ⟨n, hn⟩
      rw [collectLog_of_ne_accept hno] at hops
      cases hops
      rw [J.adds_cons, hweight]
      simp [not_behind hno]

end

end Logs

/-! ### Parses with operations -/

/-- The parse does operations, which add something to the state where `D` holds. -/
def Logged (J : Journal ω ι σ) (m : Meaning κ σ) (f : Recognizer κ) (D : List κ → Prop) : Prop :=
  ∃ log, Logs J m f log D

/-- The parse does operations that add nothing. -/
abbrev Plain (J : Journal ω ι σ) (m : Meaning κ σ) (f : Recognizer κ) : Prop :=
  Logged J m f fun _ => False

namespace Logged

variable {J : Journal ω ι σ} {m m' : Meaning κ σ} {f f' : Recognizer κ} {D D' : List κ → Prop}

theorem congr (h : Logged J m f D) (hD : ∀ s, D s ↔ D' s) : Logged J m f D' := by
  obtain ⟨log, h⟩ := h
  exact ⟨log, h.congr hD⟩

theorem lift (hf : Final f) : Plain J (Meaning.lift f) f := ⟨_, .lift hf⟩

/-- A parse that does one operation in any case, always of the same kind. -/
theorem always {o : List κ → ω} (hf : Final f) (hrun : ∀ s st, m s st = .ok (f s, J.step (o s) st))
    (ho : ∀ s t, f s ≠ .incomplete → o (s ++ t) = o s)
    (hkind : ∀ s s', J.kind (o s) = J.kind (o s')) (hweight : ∀ s, J.weight (o s) = 0) :
    Plain J m f := by
  refine ⟨fun s => .ok [o s], hrun, fun s t hs => ?_, fun s t ops hops => ?_, fun s ops hops => ?_⟩
  · rw [ho s t hs]
    exact ⟨hf s t hs, rfl⟩
  · cases hops
    exact ⟨_, rfl, .cons (hkind s (s ++ t)) .nil⟩
  · cases hops
    simp [hweight]

theorem seq (h : Logged J m f D) (h' : Logged J m' f' D') :
    Logged J (m.seq m') (f.seq f') fun s => D s ∨ Behind f D' s := by
  obtain ⟨log, h⟩ := h
  obtain ⟨log', h'⟩ := h'
  exact ⟨_, h.seq h'⟩

/-- What comes behind adds nothing. -/
theorem seq_plain (h : Logged J m f D) (h' : Plain J m' f') :
    Logged J (m.seq m') (f.seq f') D :=
  (h.seq h').congr fun s => by simp [Behind]

/-- What comes before adds nothing. -/
theorem plain_seq (h : Plain J m f) (h' : Logged J m' f' D') :
    Logged J (m.seq m') (f.seq f') (Behind f D') :=
  (h.seq h').congr fun s => by simp

/-- What comes behind adds something where it accepts. -/
theorem plain_seq_accepts (h : Plain J m f) (h' : Logged J m' f' (Accepts f')) :
    Logged J (m.seq m') (f.seq f') (Accepts (f.seq f')) :=
  (h.plain_seq h').congr fun _ => behind_accepts

theorem alt (h : Logged J m f D) (h' : Logged J m' f' D') :
    Logged J (m.alt m') (f.alt f') fun s => D s ∨ f s = .reject ∧ D' s := by
  obtain ⟨log, h⟩ := h
  obtain ⟨log', h'⟩ := h'
  exact ⟨_, h.alt h'⟩

theorem alt_plain (h : Logged J m f D) (h' : Plain J m' f') : Logged J (m.alt m') (f.alt f') D :=
  (h.alt h').congr fun s => by simp

theorem opt (h : Logged J m f D) : Logged J m.opt f.opt D := by
  obtain ⟨log, h⟩ := h
  exact ⟨_, h.opt⟩

theorem loop (h : Logged J m f D) (hD : ∀ s n, f s = .accept n → D s) :
    Logged J m.loop f.star D := by
  obtain ⟨log, h⟩ := h
  exact ⟨_, h.loop hD⟩

/-- A visitor that does operations on the text that is accepted. -/
theorem finish_adding {accepted : List κ → σ → Except Fault σ}
    (accepted' : List κ → Except Fault (List ω)) (h : Logged J m f D)
    (ha : ∀ text st, accepted text st = (accepted' text).map fun ops => J.perform ops st) :
    Logged J (m.finish accepted id) f fun s =>
      D s ∨ ∃ n ops, f s = .accept n ∧ accepted' (s.take n) = .ok ops ∧ J.Adds ops := by
  obtain ⟨log, h⟩ := h
  exact ⟨_, h.finish ha⟩

/-- A visitor whose operations add nothing. -/
theorem finish {accepted : List κ → σ → Except Fault σ} (accepted' : List κ → Except Fault (List ω))
    (h : Logged J m f D)
    (ha : ∀ text st, accepted text st = (accepted' text).map fun ops => J.perform ops st)
    (hadds : ∀ text ops, accepted' text = .ok ops → ¬ J.Adds ops) :
    Logged J (m.finish accepted id) f D := by
  refine (h.finish_adding accepted' ha).congr fun s => or_iff_left ?_
  rintro ⟨n, ops, -, hops, hne⟩
  exact hadds _ ops hops hne

/-- Operations on an accepted text. -/
theorem record_ops {part : List κ → σ → σ} (part' : List κ → List ω) (hf : Final f)
    (hpart : ∀ text st, part text st = J.perform (part' text) st) :
    Logged J (Meaning.record f part) f
      fun s => ∃ n, f s = .accept n ∧ J.Adds (part' (s.take n)) := by
  rw [← finish_lift]
  refine ((lift hf).finish_adding (fun text => .ok (part' text)) fun text st => ?_).congr
    fun s => ?_
  · rw [hpart]
    rfl
  · simp

theorem record {part : List κ → σ → σ} (part' : List κ → List ω) (hf : Final f)
    (hpart : ∀ text st, part text st = J.perform (part' text) st)
    (hadds : ∀ text, ¬ J.Adds (part' text)) : Plain J (Meaning.record f part) f :=
  (record_ops part' hf hpart).congr fun s => by simp [hadds]

/-- Operations on an accepted text that add something. -/
theorem record_adds {part : List κ → σ → σ} (part' : List κ → List ω) (hf : Final f)
    (hpart : ∀ text st, part text st = J.perform (part' text) st)
    (hadds : ∀ text, J.Adds (part' text)) : Logged J (Meaning.record f part) f (Accepts f) :=
  (record_ops part' hf hpart).congr fun s => by simp [hadds, Accepts]

theorem through {p : Pointer τ σ} {J' : Journal ω' ι' τ} (e : ω → ω') (h : Logged J m f D)
    (hstep : ∀ o t, J'.step (e o) t = p.set (J.step o (p.get t)) t)
    (hkind : ∀ o o', J.kind o = J.kind o' → J'.kind (e o) = J'.kind (e o'))
    (hweight : ∀ o, J'.weight (e o) = J.weight o) : Logged J' (m.through p) f D := by
  obtain ⟨log, h⟩ := h
  exact ⟨_, h.through hstep hkind hweight⟩

theorem collect {J₀ : Journal ω' ι' σ} (part : List κ → σ → σ) (before : σ → σ)
    (c : List κ → List ω' → ω) (hf : Final f) (h : Logged J₀ m f' D)
    (hstep : ∀ text ops st, J.step (c text ops) st = J₀.perform ops (part text (before st)))
    (hempty : ∀ st, part [] (before st) = before st)
    (hkind : ∀ text ops text' ops', J.kind (c text ops) = J.kind (c text' ops'))
    (hweight : ∀ text ops, J.weight (c text ops) ≠ 0 ↔ J₀.Adds ops) :
    Logged J (((Meaning.record f part).seq m).after before) (f.seq f') (Behind f D) := by
  obtain ⟨log, h⟩ := h
  exact ⟨_, .collect hf h hstep hempty hkind hweight⟩

end Logged

end Hittop
