/-
**The recognizer of a rule.**

Where no visitor is called, a parse is a recognizer that can be read off the rule: `Concat` is
sequence, `Either` is ordered choice, `Repeat` is the star.  This module computes it, and shows that
the parser has its verdicts, with or without a visitor, as long as the visitor is callable with none
of the rules below.

Main definitions:

* `Hittop.Env.recognizer` — the recognizer of a rule, from those of the forward references;
* `Hittop.Env.quiet` — no rule below is one that a visitor is callable with.

Main results:

* `Hittop.Env.recognizer_eq` — the recognizer of a rule, by the parser the rule selects;
* `Hittop.parserMeaning_eq_recognizer` — the parser of a quiet rule has the verdicts of its
  recognizer, and no effect.
-/

import Hittop.Transparency

set_option relaxedAutoImplicit false
set_option autoImplicit false

namespace Hittop

open Exec

variable {ρ φ κ ν σ : Type}

/-! ### Recognizers of rules -/

namespace Env

variable (Γ : Env ρ φ κ) (refs : ρ → Recognizer κ)

/-- The recognizer of the two ends of a `Trim`. -/
def spaces : Recognizer κ := .force (.star (.satisfy fun c => Γ.filter Γ.isspace (Γ.toInt c)))

/-- The recognizer of a rule.  `refs` are those of the forward references. -/
def recognizer : Rule ρ φ → Recognizer κ
  | .literal chs => .text Γ.toInt chs
  | .charFilter f => .satisfy fun c => Γ.filter f (Γ.toInt c)
  | .anyChar => .satisfy fun _ => true
  | .charClass rules => firstOf rules
  | .token get => .text Γ.toInt get
  | .success => .eps
  | .failure => .fail
  | .concat parts => inSequence parts
  | .either grammars => firstOf grammars
  | .opt t => .opt (recognizer t)
  | .unless_ r d => .exclude (recognizer r) (recognizer d)
  | .repeat_ g => .star (recognizer g)
  | .repeatAndThen repeated rest size => .starThen size (recognizer repeated) (recognizer rest)
  | .exactly n g => .power (recognizer g) n
  | .atLeast n g => .seq (.power (recognizer g) n) (.star (recognizer g))
  | .atMost n g => .upTo (recognizer g) n
  | .between m n g => .seq (.power (recognizer g) m) (.upTo (recognizer g) (n - m))
  | .inter item delim =>
      .opt (.seq (recognizer item) (.star (.seq (recognizer delim) (recognizer item))))
  | .impliedDelim delim parts => delimited (recognizer delim) parts
  | .force g => .force (recognizer g)
  | .trim g => .seq Γ.spaces (.seq (recognizer g) Γ.spaces)
  | .forwardRef m => refs m
where
  /-- The parts of a `Concat`. -/
  inSequence : List (Rule ρ φ) → Recognizer κ
    | [] => .eps
    | g :: gs => .seq (recognizer g) (inSequence gs)
  /-- The alternatives of an `Either`. -/
  firstOf : List (Rule ρ φ) → Recognizer κ
    | [] => .fail
    | g :: gs => .alt (recognizer g) (firstOf gs)
  /-- The parts of an `ImpliedDelim`. -/
  delimited (delim : Recognizer κ) : List (Rule ρ φ) → Recognizer κ
    | [] => .eps
    | [g] => recognizer g
    | g :: gs => .seq (recognizer g) (.seq delim (delimited delim gs))

/-- The recognizer of the selected parser, from those of the rules it calls. -/
def specialRecognizer (self : Rule ρ φ → Recognizer κ) : Special ρ φ → Recognizer κ
  | .inherits base => self base
  | .forwardRef m => refs m
  | .success => .eps
  | .failure => .fail
  | .anyChar => .satisfy fun _ => true
  | .literal ch => .satisfy fun c => decide (Γ.toInt c = ch)
  | .charFilter f => .satisfy fun c => Γ.filter f (Γ.toInt c)
  | .charClass rules => rules.foldr (fun g f => .alt (self g) f) .fail
  | .token get => .text Γ.toInt get
  | .concat first second => .seq (self first) (self second)
  | .either first second => .alt (self first) (self second)
  | .unless_ r d => .exclude (self r) (self d)
  | .repeat_ g => .star (self g)
  | .repeatAndThen repeated rest size => .starThen size (self repeated) (self rest)
  | .force g => .force (self g)
  | .undefined => .fail

theorem recognizer_firstOf (gs : List (Rule ρ φ)) :
    recognizer.firstOf Γ refs gs = gs.foldr (fun g f => .alt (Γ.recognizer refs g) f) .fail := by
  induction gs with
  | nil => rfl
  | cons g gs ih => rw [recognizer.firstOf, ih, List.foldr_cons]

/-- **The recognizer of a rule follows the parser the rule selects.** -/
theorem recognizer_eq (g : Rule ρ φ) (h : Γ.special g ≠ .undefined) :
    Γ.recognizer refs g = Γ.specialRecognizer refs (Γ.recognizer refs) (Γ.special g) := by
  cases g with
  | literal chs =>
      rcases chs with _ | ⟨ch, _ | ⟨ch', rest⟩⟩
      · exact absurd rfl h
      · exact Recognizer.text_singleton
      · simp [special, specialRecognizer, recognizer, Recognizer.text]
  | charClass rules =>
      simp only [special] at h ⊢
      split_ifs at h ⊢ with hall
      · exact Γ.recognizer_firstOf refs rules
      · exact absurd rfl h
  | concat parts =>
      rcases parts with _ | ⟨a, _ | ⟨b, _ | ⟨c, rest⟩⟩⟩ <;>
        simp [special, specialRecognizer, recognizer, recognizer.inSequence]
  | either grammars =>
      rcases grammars with _ | ⟨a, _ | ⟨b, _ | ⟨c, rest⟩⟩⟩ <;>
        simp [special, specialRecognizer, recognizer, recognizer.firstOf]
  | opt t =>
      simp [special, specialRecognizer, recognizer, recognizer.firstOf, Recognizer.opt]
  | exactly n g =>
      rcases n with _ | _ | n <;>
        simp [special, specialRecognizer, recognizer, recognizer.inSequence, Recognizer.power]
  | atLeast n g =>
      simp [special, specialRecognizer, recognizer, recognizer.inSequence]
  | atMost n g =>
      rcases n with _ | _ | n <;>
        simp [special, specialRecognizer, recognizer, recognizer.inSequence, Recognizer.upTo]
  | between m n g =>
      simp only [special] at h ⊢
      split_ifs at h ⊢ with hle
      · simp [specialRecognizer, recognizer, recognizer.inSequence]
      · exact absurd rfl h
  | inter item delim =>
      simp [special, specialRecognizer, recognizer, recognizer.inSequence]
  | impliedDelim delim parts =>
      rcases parts with _ | ⟨a, _ | ⟨b, rest⟩⟩ <;>
        simp [special, specialRecognizer, recognizer, recognizer.inSequence, recognizer.delimited]
  | trim g =>
      simp [special, specialRecognizer, recognizer, recognizer.inSequence, forceSpaces, spaces]
  | _ => rfl

end Env

/-! ### The references a recognizer depends on -/

/-- If the rule is a forward reference, it is one of those in `r`. -/
def Rule.RefersTo (r : ρ → Bool) : Rule ρ φ → Prop
  | .forwardRef m => r m = true
  | _ => True

instance (r : ρ → Bool) (g : Rule ρ φ) : Decidable (g.RefersTo r) :=
  match g with
  | .forwardRef m => inferInstanceAs (Decidable (r m = true))
  | .literal _ | .charFilter _ | .anyChar | .charClass _ | .token _ | .success | .failure
  | .concat _ | .either _ | .opt _ | .unless_ _ _ | .repeat_ _ | .repeatAndThen _ _ _
  | .exactly _ _ | .atLeast _ _ | .atMost _ _ | .between _ _ _ | .inter _ _ | .impliedDelim _ _
  | .force _ | .trim _ => .isTrue trivial

mutual

/-- The recognizer of a rule depends on the references in it only. -/
theorem Env.recognizer_congr (Γ : Env ρ φ κ) {refs refs' : ρ → Recognizer κ} {r : ρ → Bool}
    (h : ∀ m, r m = true → refs m = refs' m) :
    ∀ g : Rule ρ φ, g.Each (Rule.RefersTo r) → Γ.recognizer refs g = Γ.recognizer refs' g
  | .literal _, _ | .charFilter _, _ | .anyChar, _ | .token _, _ | .success, _ | .failure, _ => rfl
  | .charClass gs, hg | .either gs, hg => by
      simpa only [recognizer] using Env.recognizer_firstOf_congr Γ h gs hg.2
  | .concat gs, hg => by
      simpa only [recognizer] using Env.recognizer_inSequence_congr Γ h gs hg.2
  | .opt g, hg | .repeat_ g, hg | .exactly _ g, hg | .atLeast _ g, hg | .atMost _ g, hg
  | .between _ _ g, hg | .force g, hg | .trim g, hg => by
      simp only [recognizer, Env.recognizer_congr Γ h g hg.2]
  | .unless_ a b, hg | .repeatAndThen a b _, hg | .inter a b, hg => by
      simp only [recognizer, Env.recognizer_congr Γ h a hg.2.1, Env.recognizer_congr Γ h b hg.2.2]
  | .impliedDelim d gs, hg => by
      simp only [recognizer, Env.recognizer_congr Γ h d hg.2.1]
      exact Env.recognizer_delimited_congr Γ h _ gs hg.2.2
  | .forwardRef m, hg => h m hg

theorem Env.recognizer_inSequence_congr (Γ : Env ρ φ κ) {refs refs' : ρ → Recognizer κ}
    {r : ρ → Bool} (h : ∀ m, r m = true → refs m = refs' m) :
    ∀ gs : List (Rule ρ φ), Rule.Each.eachOf (Rule.RefersTo r) gs →
      recognizer.inSequence Γ refs gs = recognizer.inSequence Γ refs' gs
  | [], _ => rfl
  | g :: gs, hg => by
      obtain ⟨hhead, htail⟩ := Rule.eachOf_cons.1 hg
      simp only [recognizer.inSequence, Env.recognizer_congr Γ h g hhead,
        Env.recognizer_inSequence_congr Γ h gs htail]

theorem Env.recognizer_firstOf_congr (Γ : Env ρ φ κ) {refs refs' : ρ → Recognizer κ}
    {r : ρ → Bool} (h : ∀ m, r m = true → refs m = refs' m) :
    ∀ gs : List (Rule ρ φ), Rule.Each.eachOf (Rule.RefersTo r) gs →
      recognizer.firstOf Γ refs gs = recognizer.firstOf Γ refs' gs
  | [], _ => rfl
  | g :: gs, hg => by
      obtain ⟨hhead, htail⟩ := Rule.eachOf_cons.1 hg
      simp only [recognizer.firstOf, Env.recognizer_congr Γ h g hhead,
        Env.recognizer_firstOf_congr Γ h gs htail]

theorem Env.recognizer_delimited_congr (Γ : Env ρ φ κ) {refs refs' : ρ → Recognizer κ}
    {r : ρ → Bool} (h : ∀ m, r m = true → refs m = refs' m) (d : Recognizer κ) :
    ∀ gs : List (Rule ρ φ), Rule.Each.eachOf (Rule.RefersTo r) gs →
      recognizer.delimited Γ refs d gs = recognizer.delimited Γ refs' d gs
  | [], _ => rfl
  | [g], hg => Env.recognizer_congr Γ h g (Rule.eachOf_cons.1 hg).1
  | g :: g' :: gs, hg => by
      obtain ⟨hhead, htail⟩ := Rule.eachOf_cons.1 hg
      simp only [recognizer.delimited, Env.recognizer_congr Γ h g hhead,
        Env.recognizer_delimited_congr Γ h d (g' :: gs) htail]

end

/-! ### Parsers without effects -/

/-- The parser has the verdicts of the recognizer, and leaves the state alone. -/
def Reading (p : List κ → Exec σ ParseResult) (f : Recognizer κ) : Prop :=
  ∀ s st, ∃ r, p s st = .ok (r, st) ∧ r.verdict = f s

theorem climbFrom_ne_nil {f : Recognizer κ} {size : ℕ} (hsize : 0 < size) {s : List κ} {k : ℕ}
    {prior prior' : List ℕ} (hprior : prior ≠ [])
    (h : Recognizer.climbFrom f size s k prior = some prior') : prior' ≠ [] := by
  induction k generalizing prior with
  | zero =>
      cases h
      exact hprior
  | succ k ih =>
      cases prior with
      | nil => exact absurd rfl hprior
      | cons back older =>
          simp only [Recognizer.climbFrom] at h
          split at h
          · cases h
            simp
          · refine ih ?_ h
            cases size with
            | zero => omega
            | succ size => simp
          · cases h
          · cases h
            simp

/-- The first loop of a `RepeatAndThen` climbs like its recognizer. -/
theorem climbs_reading {p : List κ → Exec σ ParseResult} {f : Recognizer κ} (hp : Reading p f)
    {size : ℕ} (hsize : 0 < size) (s : List κ) (k back : ℕ) (older : List ℕ)
    (hback : back ≤ s.length) (hk : s.length < back + k) (st : σ) :
    match Recognizer.climbFrom f size s k (back :: older) with
    | none => ∃ r : ParseResult,
        climbs p size s (back :: older) st = .ok (.inl r, st) ∧ r.error = .incomplete
    | some prior => climbs p size s (back :: older) st = .ok (.inr prior, st) := by
  induction k generalizing back older with
  | zero => omega
  | succ k ih =>
      obtain ⟨r, hr, hv⟩ := hp (s.drop back) st
      rw [climbs_cons, bind_of_ok hr]
      simp only [Recognizer.climbFrom]
      rcases r.verdict_cases with ⟨n, rfl⟩ | ⟨hok, hinc, hw⟩ | ⟨hok, hinc, hw⟩
      · rw [← hv]
        simp only [ParseResult.verdict_success, ParseResult.success_ok, ParseResult.success_pos]
        cases n with
        | zero => rfl
        | succ n =>
            obtain ⟨size, rfl⟩ : ∃ j, size = j + 1 := ⟨size - 1, by omega⟩
            have hle : n + 1 ≤ (s.drop back).length := Recognizer.le_length hv.symm
            rw [List.length_drop] at hle
            simp only [Nat.succ_ne_zero, if_false]
            have hback' : back + (n + 1) ≤ s.length := by omega
            exact ih (back + (n + 1)) _ hback' (by omega)
      · rw [← hv, hw]
        simp only [hok, hinc, Bool.false_eq_true, if_false, if_true]
        exact ⟨r.advance back, rfl, hinc⟩
      · rw [← hv, hw]
        simp only [hok, hinc, Bool.false_eq_true, if_false]
        rfl

/-- The second loop of a `RepeatAndThen` falls back like its recognizer. -/
theorem fallBack_reading {p : List κ → Exec σ ParseResult} {f : Recognizer κ} (hp : Reading p f)
    (s : List κ) (st : σ) : ∀ prior : List ℕ, prior ≠ [] →
      ∃ r, fallBack p s prior st = .ok (r, st) ∧ r.verdict = Recognizer.fallBack f s prior
  | [], h => absurd rfl h
  | [back], _ => by
      obtain ⟨r, hr, hv⟩ := hp (s.drop back) st
      refine ⟨r.advance back, ?_, by simp [Recognizer.fallBack, hv]⟩
      rw [fallBack, bind_of_ok hr]
      rfl
  | back :: older :: rest, _ => by
      obtain ⟨r, hr, hv⟩ := hp (s.drop back) st
      simp only [fallBack, Recognizer.fallBack]
      rw [bind_of_ok hr, ← hv]
      rcases r.verdict_cases with ⟨n, rfl⟩ | ⟨hok, hinc, hw⟩ | ⟨hok, hinc, hw⟩
      · exact ⟨_, rfl, by simp⟩
      · simp only [hok, hinc, Bool.false_eq_true, if_false, if_true, hw]
        exact ⟨_, rfl, by simp [hw]⟩
      · simp only [hok, hinc, Bool.false_eq_true, if_false, hw]
        exact fallBack_reading hp s st (older :: rest) (by simp)

section Equations

variable {Γ : Env ρ φ κ} {V : Visitors ρ φ κ ν σ} {args : Option ν} {g : Rule ρ φ}

theorem reading_outcome {f : Recognizer κ} (h : meaning Γ V args g = Meaning.lift f) :
    Reading (outcome Γ V args g) f :=
  fun s st => Exec.verdict_ok_iff.1 (congrFun (congrFun h s) st)

theorem parserMeaning_force {g' : Rule ρ φ} (h : Γ.special g = .force g') {f : Recognizer κ}
    (hf : meaning Γ V args g' = Meaning.lift f) (hne : ∀ s, f s ≠ .reject) :
    parserMeaning Γ V args g = Meaning.lift f.force := by
  funext s st
  obtain ⟨r, hr, hv⟩ := reading_outcome hf s st
  rw [parserMeaning, parserOutcome_eq, h]
  refine Exec.verdict_ok_iff.2 ⟨.success r.pos, bind_of_ok hr, ?_⟩
  rw [Recognizer.force_apply, ← hv]
  rcases r.verdict_cases with ⟨n, rfl⟩ | ⟨-, hinc, hw⟩ | ⟨-, -, hw⟩
  · rfl
  · rw [hw, ParseResult.verdict_success, (outcome_placed args g' s st r st hr).incomplete hinc]
  · exact absurd (hv.symm.trans hw) (hne s)

theorem parserMeaning_repeatAndThen {a b : Rule ρ φ} {size : ℕ}
    (h : Γ.special g = .repeatAndThen a b size) (hsize : 0 < size) {f f' : Recognizer κ}
    (ha : meaning Γ V args a = Meaning.lift f) (hb : meaning Γ V args b = Meaning.lift f') :
    parserMeaning Γ V args g = Meaning.lift (.starThen size f f') := by
  funext s st
  rw [parserMeaning, parserOutcome_eq, h, Meaning.lift_apply]
  refine Exec.verdict_ok_iff.2 ?_
  simp only [Env.operatorOutcome]
  rw [Recognizer.starThen_apply]
  have hstart : [0].take size = [0] := List.take_of_length_le hsize
  have hclimb := climbs_reading (reading_outcome ha) hsize s (s.length + 1) 0 [] (by omega)
    (by omega) st
  rw [hstart]
  cases hprior : Recognizer.climbFrom f size s (s.length + 1) [0] with
  | none =>
      rw [hprior] at hclimb
      obtain ⟨r, hr, hinc⟩ := hclimb
      exact ⟨r, by rw [bind_of_ok hr]; rfl, ParseResult.verdict_eq_incomplete.2 hinc⟩
  | some prior =>
      rw [hprior] at hclimb
      rw [bind_of_ok hclimb]
      exact fallBack_reading (reading_outcome hb) s st prior
        (climbFrom_ne_nil hsize (by simp) hprior)

end Equations

/-! ### Quiet rules -/

/-- The rules that the parser of a rule hands to `Parse`, at any depth, all pass the test `q`.  The
forward references followed are those that `r` does not stop at; `n` bounds the depth. -/
def Env.quiet (Γ : Env ρ φ κ) (q : Rule ρ φ → Bool) (r : ρ → Bool) : ℕ → Rule ρ φ → Bool
  | 0, _ => false
  | n + 1, g =>
      match Γ.special g with
      | .inherits base => quiet Γ q r n base
      | .forwardRef m => r m
      | .concat a b | .either a b | .unless_ a b =>
          q a && quiet Γ q r n a && (q b && quiet Γ q r n b)
      | .repeat_ g' => q g' && quiet Γ q r n g'
      | .repeatAndThen a b size =>
          decide (0 < size) && (q a && quiet Γ q r n a && (q b && quiet Γ q r n b))
      | .force (.repeat_ g') => q (.repeat_ g') && quiet Γ q r n (.repeat_ g')
      | .force _ | .charClass _ | .undefined => false
      | .success | .failure | .anyChar | .literal _ | .charFilter _ | .token _ => true

/-- **The parser of a quiet rule has the verdicts of its recognizer**, and no effect. -/
theorem parserMeaning_eq_recognizer {Γ : Env ρ φ κ} {V : Visitors ρ φ κ ν σ} {args : Option ν}
    (hΓ : ∀ m, Γ.Regular (Γ.type m)) {q : Rule ρ φ → Bool} {r : ρ → Bool}
    {refs : ρ → Recognizer κ}
    (hq : ∀ g, Γ.Regular g → q g = true → meaning Γ V args g = parserMeaning Γ V args g)
    (hr : ∀ m, r m = true → parserMeaning Γ V args (Γ.type m) = Meaning.lift (refs m)) (n : ℕ)
    {g : Rule ρ φ} (hg : Γ.Regular g) (h : Γ.quiet q r n g = true) :
    parserMeaning Γ V args g = Meaning.lift (Γ.recognizer refs g) := by
  -- `n` bounds the depth of the calls, as it does for `quiet`
  induction n generalizing g with
  | zero => cases h
  | succ n ih =>
      have hcalls := Env.Regular.calls hΓ hg
      have hstep : ∀ g' ∈ Γ.calls (Γ.special g), q g' = true → Γ.quiet q r n g' = true →
          meaning Γ V args g' = Meaning.lift (Γ.recognizer refs g') := fun g' hmem hq' hn =>
        (hq g' (hcalls g' hmem) hq').trans (ih (hcalls g' hmem) hn)
      unfold Env.quiet at h
      cases hsp : Γ.special g with
      | inherits base =>
          rw [hsp] at h hcalls
          rw [Env.recognizer_eq Γ refs g (by simp [hsp]), hsp, parserMeaning_inherits hsp]
          exact ih (hcalls base (by simp [Env.calls])) h
      | forwardRef m =>
          rw [hsp] at h
          rw [Env.recognizer_eq Γ refs g (by simp [hsp]), hsp, parserMeaning_forwardRef hsp]
          exact hr m h
      | concat a b =>
          simp only [hsp, Bool.and_eq_true] at h
          rw [Env.recognizer_eq Γ refs g (by simp [hsp]), hsp, parserMeaning_concat hsp,
            hstep a (by simp [hsp, Env.calls]) h.1.1 h.1.2,
            hstep b (by simp [hsp, Env.calls]) h.2.1 h.2.2]
          exact Meaning.seq_lift _ _
      | either a b =>
          simp only [hsp, Bool.and_eq_true] at h
          rw [Env.recognizer_eq Γ refs g (by simp [hsp]), hsp, parserMeaning_either hsp,
            hstep a (by simp [hsp, Env.calls]) h.1.1 h.1.2,
            hstep b (by simp [hsp, Env.calls]) h.2.1 h.2.2]
          exact Meaning.alt_lift _ _
      | unless_ a b =>
          simp only [hsp, Bool.and_eq_true] at h
          rw [Env.recognizer_eq Γ refs g (by simp [hsp]), hsp, parserMeaning_unless hsp,
            hstep a (by simp [hsp, Env.calls]) h.1.1 h.1.2,
            hstep b (by simp [hsp, Env.calls]) h.2.1 h.2.2]
          exact Meaning.exclude_lift _ _
      | repeat_ g' =>
          simp only [hsp, Bool.and_eq_true] at h
          -- the loop is the only solution of its equation
          have hloop : parserMeaning Γ V args g =
              Meaning.turn (meaning Γ V args g') (parserMeaning Γ V args g) :=
            parserMeaning_repeat hsp
          rw [hstep g' (by simp [hsp, Env.calls]) h.1 h.2] at hloop
          rw [Env.recognizer_eq Γ refs g (by simp [hsp]), hsp]
          exact Meaning.turn_unique hloop
      | repeatAndThen a b size =>
          simp only [hsp, Bool.and_eq_true, decide_eq_true_eq] at h
          rw [Env.recognizer_eq Γ refs g (by simp [hsp]), hsp]
          exact parserMeaning_repeatAndThen hsp h.1
            (hstep a (by simp [hsp, Env.calls]) h.2.1.1 h.2.1.2)
            (hstep b (by simp [hsp, Env.calls]) h.2.2.1 h.2.2.2)
      | force g' =>
          rw [hsp] at h
          cases g' with
          | repeat_ g'' =>
              simp only [Bool.and_eq_true] at h
              rw [Env.recognizer_eq Γ refs g (by simp [hsp]), hsp]
              exact parserMeaning_force hsp (hstep _ (by simp [hsp, Env.calls]) h.1 h.2)
                fun s => Recognizer.star_ne_reject _ s
          | _ => simp at h
      | success =>
          rw [Env.recognizer_eq Γ refs g (by simp [hsp]), hsp]
          exact parserMeaning_success hsp
      | failure =>
          rw [Env.recognizer_eq Γ refs g (by simp [hsp]), hsp]
          exact parserMeaning_failure hsp
      | anyChar =>
          rw [Env.recognizer_eq Γ refs g (by simp [hsp]), hsp]
          exact parserMeaning_anyChar hsp
      | literal ch =>
          rw [Env.recognizer_eq Γ refs g (by simp [hsp]), hsp]
          exact parserMeaning_literal hsp
      | charFilter f =>
          rw [Env.recognizer_eq Γ refs g (by simp [hsp]), hsp]
          exact parserMeaning_charFilter hsp
      | token get =>
          rw [Env.recognizer_eq Γ refs g (by simp [hsp]), hsp]
          exact parserMeaning_token hsp
      | charClass rules => simp [hsp] at h
      | undefined => simp [hsp] at h

end Hittop
