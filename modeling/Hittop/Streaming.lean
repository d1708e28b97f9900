/-
**Reading on never changes an answer.**

A parser that has not answered `INCOMPLETE` has not looked at the end of its range: every
combinator but `Force` hands an `INCOMPLETE` result on at once.  So the run on a range `s` either
ends in `INCOMPLETE` or is, step by step, the run on any longer range `s ++ t`.

Main definitions:

* `Hittop.Couples` — one run is another one that may have come to the end of its range;
* `Hittop.Rule.ForceFree` — no `Force` and no `Trim` occurs in a rule.

Main results:

* `Hittop.Env.operatorCall_couples` — `operator()` keeps two runs coupled, `Force` apart;
* `Hittop.parse_couples` — the parse of a longer range is coupled to that of the range;
* `Hittop.streaming_stability` — an answer other than `INCOMPLETE` is final, and every strict
  prefix of a text that is accepted in full is `INCOMPLETE`.
-/

import Hittop.Bounds
import Hittop.Environment
import Hittop.Shape

set_option relaxedAutoImplicit false
set_option autoImplicit false

namespace Hittop

open Exec

variable {ρ φ κ ν σ : Type}

/-! ### Coupled runs -/

/-- What a run on a shorter range may end in instead of the outcome of the run on a longer one.
`short` allows it to run out of fuel as well. -/
def Starved (short : Prop) : Except Fault (ParseResult × σ) → Prop
  | .ok (r, _) => r.error = .incomplete
  | .error e => short ∧ e = .outOfFuel

/-- `x` is the run `y`, except that it may end in `INCOMPLETE`. -/
def Couples (short : Prop) (x y : Exec σ ParseResult) : Prop :=
  ∀ st, Starved short (x st) ∨ x st = y st

theorem Couples.refl {short : Prop} (x : Exec σ ParseResult) : Couples short x x :=
  fun _ => Or.inr rfl

/-- Coupled runs stay coupled when they go on in coupled ways and `INCOMPLETE` is handed on. -/
theorem Couples.bind {short : Prop} {P : ParseResult → Prop} {x y : Exec σ ParseResult}
    {f g : ParseResult → Exec σ ParseResult} (hx : Couples short x y) (hP : Ensures x P)
    (hf : ∀ r, P r → Couples short (f r) (g r))
    (hinc : ∀ r, P r → r.error = .incomplete → ∀ st, Starved short (f r st)) :
    Couples short (x >>= f) (y >>= g) := by
  intro st
  cases hxs : x st with
  | error e =>
      rcases hx st with h | h
      · exact Or.inl (by rw [bind_of_error hxs]; exact hxs ▸ h)
      · exact Or.inr (by rw [bind_of_error hxs, bind_of_error (h.symm.trans hxs)])
  | ok p =>
      obtain ⟨r, st₁⟩ := p
      rcases hx st with h | h
      · rw [hxs] at h
        exact Or.inl (by rw [bind_of_ok hxs]; exact hinc r (hP st r st₁ hxs) h st₁)
      · rw [bind_of_ok hxs, bind_of_ok (h.symm.trans hxs)]
        exact hf r (hP st r st₁ hxs) st₁

theorem Couples.ite {short : Prop} {p : Prop} [Decidable p] {x y x' y' : Exec σ ParseResult}
    (h : p → Couples short x y) (h' : ¬p → Couples short x' y') :
    Couples short (if p then x else x') (if p then y else y') := by
  by_cases hp : p
  · simpa [hp] using h hp
  · simpa [hp] using h' hp

/-- The answer of the shorter range is the answer of the longer one unless it is starved. -/
theorem Couples.ok {short : Prop} {x y : Exec σ ParseResult} (h : Couples short x y)
    {st st' : σ} {r : ParseResult} (hx : x st = .ok (r, st')) (hr : r.error ≠ .incomplete) :
    y st = .ok (r, st') := by
  rcases h st with h | h
  · rw [hx] at h
    exact absurd h hr
  · rw [← h, hx]

/-! ### The combinators -/

theorem drop_append {s t : List κ} {k : ℕ} (h : k ≤ s.length) :
    (s ++ t).drop k = s.drop k ++ t := List.drop_append_of_le_length h

theorem take_append {s t : List κ} {k : ℕ} (h : k ≤ s.length) :
    (s ++ t).take k = s.take k := List.take_append_of_le_length h

section Combinators

variable {short : Prop} {t : List κ}

/-- The runs of a parser on a range and on the range followed by `t` are coupled. -/
def Steady (short : Prop) (t : List κ) (p : List κ → Exec σ ParseResult) : Prop :=
  ∀ s, Couples short (p s) (p (s ++ t))

theorem starved_pure {short : Prop} {r : ParseResult} (h : r.error = .incomplete) (st : σ) :
    Starved short ((pure r : Exec σ ParseResult) st) := h

theorem repeatLoop_steady {p : List κ → Exec σ ParseResult} (hp : Steady short t p)
    (hpl : AllPlaced p) (k : ℕ) : Steady short t (repeatLoop p k) := by
  induction k with
  | zero => intro s; exact Couples.refl _
  | succ k ih =>
      intro s
      refine (hp s).bind (hpl s) (fun r hr => Couples.ite (fun _ => ?_) fun _ => Couples.refl _)
        fun r _ hinc st => ?_
      · refine Couples.ite (fun _ => Couples.refl _) fun _ => ?_
        rw [drop_append hr.le]
        refine (ih _).bind (Ensures.true _) (fun _ _ => Couples.refl _) fun rest _ hinc st => ?_
        exact starved_pure (by simpa using hinc) st
      · simp only [ParseResult.not_ok_of_incomplete hinc, Bool.false_eq_true, if_false, hinc,
          if_true]
        exact starved_pure hinc st

/-- The first loop of `Parser<RepeatAndThen>` followed by what is done with its outcome. -/
theorem climb_steady {p : List κ → Exec σ ParseResult} (hp : Steady short t p)
    (hpl : AllPlaced p) (size : ℕ) (s : List κ)
    {f g : ParseResult ⊕ List ℕ → Exec σ ParseResult}
    (hstop : ∀ r st, r.error = .incomplete → Starved short (f (.inl r) st))
    (hgo : ∀ prior : List ℕ, (∀ q ∈ prior, q ≤ s.length) →
      Couples short (f (.inr prior)) (g (.inr prior))) (k : ℕ) (prior : List ℕ)
    (hprior : ∀ q ∈ prior, q ≤ s.length) :
    Couples short (climb p size s k prior >>= f) (climb p size (s ++ t) k prior >>= g) := by
  induction k generalizing prior with
  | zero => exact fun st => Or.inr (by simp only [climb, bind_of_error (fault_apply _ st)])
  | succ k ih =>
      cases prior with
      | nil => exact fun st => Or.inr (by simp only [climb, bind_of_error (fault_apply _ st)])
      | cons back older =>
          have hback : back ≤ s.length := hprior back (by simp)
          simp only [climb, drop_append hback, bind_assoc]
          refine (hp _).bind (hpl _) (fun r hr => ?_) fun r _ hinc st => ?_
          · have hr' : r.pos ≤ s.length - back := by simpa using hr.le
            by_cases hok : r.ok = true
            · simp only [hok, if_true]
              by_cases hz : r.pos = 0
              · simpa only [hz, if_true, pure_bind] using hgo _ hprior
              · simp only [hz, if_false]
                refine ih _ fun q hq => ?_
                rcases List.mem_cons.1 (List.mem_of_mem_take hq) with rfl | hq
                · omega
                · exact hprior q hq
            · by_cases hinc : r.error = .incomplete
              · simp only [hok, hinc, Bool.false_eq_true, if_false, if_true, pure_bind]
                exact fun st => Or.inl (hstop _ st (by simpa using hinc))
              · simpa only [hok, hinc, Bool.false_eq_true, if_false, pure_bind]
                  using hgo _ hprior
          · simp only [ParseResult.not_ok_of_incomplete hinc, Bool.false_eq_true, if_false, hinc,
              if_true, pure_bind]
            exact hstop _ st (by simpa using hinc)

theorem fallBack_steady {p : List κ → Exec σ ParseResult} (hp : Steady short t p)
    (s : List κ) : ∀ prior : List ℕ, (∀ q ∈ prior, q ≤ s.length) →
      Couples short (fallBack p s prior) (fallBack p (s ++ t) prior)
  | [], _ => Couples.refl _
  | [back], h => by
      simp only [fallBack, drop_append (h back (by simp))]
      exact (hp _).bind (Ensures.true _) (fun _ _ => Couples.refl _)
        fun r _ hinc st => starved_pure (by simpa using hinc) st
  | back :: older :: rest, h => by
      simp only [fallBack, drop_append (h back (by simp))]
      refine (hp _).bind (Ensures.true _) (fun r _ => ?_) fun r _ hinc st => ?_
      · exact Couples.ite (fun _ => Couples.refl _) fun _ =>
          Couples.ite (fun _ => Couples.refl _) fun _ =>
            fallBack_steady hp s (older :: rest) fun q hq => h q (List.mem_cons_of_mem _ hq)
      · simp only [ParseResult.not_ok_of_incomplete hinc, Bool.false_eq_true, if_false, hinc,
          if_true]
        exact starved_pure (by simpa using hinc) st

theorem mismatch_append_of_lt (as bs cs : List ℤ)
    (h : mismatch as bs < min as.length bs.length) : mismatch (as ++ cs) bs = mismatch as bs := by
  induction as generalizing bs with
  | nil => simp at h
  | cons a as ih =>
      cases bs with
      | nil => simp at h
      | cons b bs =>
          by_cases hab : a = b
          · simp only [mismatch, hab, if_true, List.length_cons] at h
            simp [mismatch, hab, ih bs (by omega)]
          · simp [mismatch, hab]

theorem mismatch_append_of_eq (as bs cs : List ℤ) (h : mismatch as bs = bs.length) :
    mismatch (as ++ cs) bs = bs.length := by
  induction as generalizing bs with
  | nil =>
      cases bs with
      | nil => cases cs <;> rfl
      | cons b bs => simp [mismatch] at h
  | cons a as ih =>
      cases bs with
      | nil => rfl
      | cons b bs =>
          by_cases hab : a = b
          · simp only [mismatch, hab, if_true, List.length_cons, Nat.add_right_cancel_iff] at h
            simp [mismatch, hab, ih bs h]
          · simp [mismatch, hab] at h

/-- A token that is not incomplete reads the same in a longer range. -/
theorem parseToken_append (get input more : List ℤ)
    (h : (parseToken get input).error ≠ .incomplete) :
    parseToken get (input ++ more) = parseToken get input := by
  have hle := mismatch_le input get
  by_cases hend : mismatch input get = min input.length get.length
  · by_cases hlen : input.length < get.length
    · simp [parseToken, hend, hlen] at h
    · have hget : mismatch input get = get.length := by omega
      have happ := mismatch_append_of_eq input get more hget
      have hmin : min input.length get.length = get.length := by omega
      have hmin' : min (input.length + more.length) get.length = get.length := by omega
      have hlen' : ¬input.length + more.length < get.length := by omega
      simp [parseToken, happ, hget, hmin, hmin', hlen, hlen']
  · have happ := mismatch_append_of_lt input get more (by omega)
    have hend' : mismatch input get ≠ min (input.length + more.length) get.length := by omega
    simp [parseToken, happ, hend, hend']

/-- `operator()` keeps two runs coupled, provided it does so for a `Force`. -/
theorem Env.operatorCall_couples (Γ : Env ρ φ κ) {L : Rule ρ φ → Prop}
    {i p u : Rule ρ φ → List κ → Exec σ ParseResult}
    (hi : ∀ g, L g → Steady short t (i g)) (hp : ∀ g, L g → Steady short t (p g))
    (hpl : ∀ g, AllPlaced (p g)) (k : ℕ) {sp : Special ρ φ} (hL : ∀ g ∈ Γ.calls sp, L g)
    (hforce : ∀ g, sp = .force g → Steady short t (Γ.operatorCall i p u k sp)) :
    Steady short t (Γ.operatorCall i p u k sp) := by
  intro s
  cases sp with
  | inherits base => exact hi base (hL _ (by simp [calls])) s
  | forwardRef m => exact hi _ (hL _ (by simp [calls])) s
  | success | failure => exact Couples.refl _
  | anyChar | literal | charFilter | charClass =>
      cases s with
      | nil => exact fun st => Or.inl rfl
      | cons c s => exact Couples.refl _
  | token get =>
      intro st
      -- a token that is a beginning of its text starves; any other result is settled
      by_cases h : (parseToken get (s.map Γ.toInt)).error = .incomplete
      · exact Or.inl h
      · refine Or.inr ?_
        simp only [operatorCall, List.map_append, parseToken_append _ _ _ h]
  | concat first second =>
      refine (hp first (hL _ (by simp [calls])) s).bind (hpl first s) (fun r hr => ?_)
        fun r _ hinc st => ?_
      · refine Couples.ite (fun _ => ?_) fun _ => Couples.refl _
        rw [drop_append hr.le]
        exact (hp second (hL _ (by simp [calls])) _).bind (Ensures.true _)
          (fun _ _ => Couples.refl _) fun r' _ hinc st => starved_pure (by simpa using hinc) st
      · simp only [ParseResult.not_ok_of_incomplete hinc, Bool.false_eq_true, if_false]
        exact starved_pure hinc st
  | either first second =>
      refine (hp first (hL _ (by simp [calls])) s).bind (Ensures.true _) (fun r _ => ?_)
        fun r _ hinc st => ?_
      · exact Couples.ite (fun _ => Couples.refl _) fun _ => hp second (hL _ (by simp [calls])) s
      · simp only [hinc, decide_true, Bool.or_true, if_true]
        exact starved_pure hinc st
  | unless_ r d =>
      refine (hp r (hL _ (by simp [calls])) s).bind (Ensures.true _) (fun r _ => ?_)
        fun r _ hinc st => ?_
      · exact Couples.ite (fun _ => Couples.refl _) fun _ =>
          Couples.ite (fun _ => Couples.refl _) fun _ => hp d (hL _ (by simp [calls])) s
      · simp only [hinc, if_true]
        exact starved_pure hinc st
  | repeat_ g => exact repeatLoop_steady (hp g (hL _ (by simp [calls]))) (hpl g) k s
  | repeatAndThen repeated rest size =>
      refine climb_steady (hp repeated (hL _ (by simp [calls]))) (hpl repeated) size s
        (fun r st hinc => starved_pure hinc st) (fun prior hprior => ?_) k _ fun q hq => ?_
      · exact fallBack_steady (hp rest (hL _ (by simp [calls]))) s prior hprior
      · have := List.mem_of_mem_take hq
        simp only [List.mem_singleton] at this
        omega
  | force g => exact hforce g rfl s
  | undefined => exact Couples.refl _

end Combinators

/-! ### Grammars without `Force` -/

/-- The rule has no `Force` and no `Trim`, and refers to live metafunctions only. -/
def Rule.ForceFree (live : ρ → Prop) : Rule ρ φ → Prop :=
  Rule.Each fun
    | .force _ | .trim _ => False
    | .forwardRef m => live m
    | _ => True

instance (live : ρ → Prop) [hlive : DecidablePred live] :
    DecidablePred (Rule.ForceFree live : Rule ρ φ → Prop) :=
  fun g => @Rule.Each.decidable _ _ _ (fun
    | .force _ | .trim _ => .isFalse id
    | .forwardRef m => hlive m
    | .literal _ | .charFilter _ | .anyChar | .charClass _ | .token _ | .success | .failure
    | .concat _ | .either _ | .opt _ | .unless_ _ _ | .repeat_ _ | .repeatAndThen _ _ _
    | .exactly _ _ | .atLeast _ _ | .atMost _ _ | .between _ _ _ | .inter _ _
    | .impliedDelim _ _ => .isTrue trivial) g

theorem forceFree_hereditary (live : ρ → Prop) :
    Hereditary (ρ := ρ) (φ := φ) fun
      | .force _ | .trim _ => False
      | .forwardRef m => live m
      | _ => True where
  success := trivial
  failure := trivial
  literal _ := trivial
  concat _ := trivial
  either _ _ := trivial
  opt _ := trivial
  repeat_ _ := trivial
  exactly _ _ := trivial
  atMost _ _ := trivial
  impliedDelim _ _ := trivial
  trim _ _ h := h.elim

section

variable {Γ : Env ρ φ κ} {live : ρ → Prop}

theorem special_ne_force {g g' : Rule ρ φ} (hg : g.ForceFree live) : Γ.special g ≠ .force g' := by
  intro h
  rw [Env.special_eq_force h] at hg
  exact Rule.Each.self hg

/-- The rewriting of `OptimizedParser` keeps a rule free of `Force`. -/
theorem Rule.ForceFree.optimized {g : Rule ρ φ} (hg : g.ForceFree live) :
    (Γ.optimized g).ForceFree live := by
  cases g with
  | either grammars =>
      match grammars, hg with
      | [], hg => exact hg
      | first :: rest, hg =>
          simp only [Env.optimized]
          split_ifs
          · exact ⟨trivial, hg.2⟩
          · have hparts := Rule.eachOf_cons.1 hg.2
            exact ⟨trivial, by
              simp only [Rule.eachOf_cons, Rule.Each, Rule.eachOf_nil, and_true, true_and]
              exact hparts⟩
  | _ => exact hg

private theorem parse_parser_couples (V : Visitors ρ φ κ ν σ)
    (hlive : ∀ m, live m → (Γ.type m).ForceFree live) (t : List κ) (n : ℕ) :
    (∀ g : Rule ρ φ, g.ForceFree live → Steady False t (parse Γ V n none g)) ∧
      ∀ g : Rule ρ φ, g.ForceFree live → Steady False t (parser Γ V n none g) := by
  induction n with
  | zero => exact ⟨fun _ _ _ => Couples.refl _, fun _ _ _ => Couples.refl _⟩
  | succ n ih =>
      obtain ⟨hp, hq⟩ := ih
      refine ⟨fun g hg => hq _ hg.optimized, fun g hg => ?_⟩
      refine Γ.operatorCall_couples hq hp (fun g => parse_placed Γ V n none g) n ?_
        fun g' h => (special_ne_force hg h).elim
      exact Rule.Each.calls (forceFree_hereditary live) (fun m hm => hlive m hm) hg

/-- The parse of a longer range is coupled to the parse of the range. -/
theorem parse_couples (V : Visitors ρ φ κ ν σ)
    (hlive : ∀ m, live m → (Γ.type m).ForceFree live) (t : List κ) (n : ℕ) {g : Rule ρ φ}
    (hg : g.ForceFree live) : Steady False t (parse Γ V n none g) :=
  (parse_parser_couples V hlive t n).1 g hg

/-- An answer other than `INCOMPLETE` is the answer for every extension of the input. -/
theorem parses_append {live : ρ → Prop} (hlive : ∀ m, live m → (Γ.type m).ForceFree live)
    {g : Rule ρ φ} (hg : g.ForceFree live) {s : List κ} {r : ParseResult} (h : Parses Γ g s r)
    (hr : r.error ≠ .incomplete) (t : List κ) : Parses Γ g (s ++ t) r := by
  obtain ⟨n, hn⟩ := h
  exact ⟨n, (parse_couples _ hlive t n hg s).ok hn hr⟩

/-- **Streaming stability.**  For a grammar without `Force` and `Trim`, an answer other than
`INCOMPLETE` is the answer for every extension of the input, and every strict prefix of a text that
is accepted in full is `INCOMPLETE`. -/
theorem streaming_stability (Γ : Env ρ φ κ) (live : ρ → Prop)
    (hlive : ∀ m, live m → (Γ.type m).ForceFree live) (g : Rule ρ φ) (hg : g.ForceFree live)
    (s t : List κ) :
    (∀ r, Parses Γ g s r → r.error ≠ .incomplete → Parses Γ g (s ++ t) r) ∧
      (Parses Γ g (s ++ t) (.success (s ++ t).length) → t ≠ [] →
        Parses Γ g s ⟨s.length, .incomplete⟩) := by
  constructor
  · exact fun r h hr => parses_append hlive hg h hr t
  · rintro ⟨n, hn⟩ ht
    have hpos : 0 < t.length := List.length_pos_iff.2 ht
    refine ⟨n, ?_⟩
    rcases parse_couples _ hlive t n hg s () with h | h
    · cases hx : parse Γ (noVisitors ρ φ κ) n none g s () with
      | error e => exact ((hx ▸ h : Starved False (.error e)).1).elim
      | ok p =>
          obtain ⟨r, st⟩ := p
          rw [hx] at h
          have hend := (parse_placed Γ _ n none g s () r st hx).incomplete h
          cases r
          simp_all [Starved]
    · have hx := h.trans hn
      have hle := (parse_placed Γ _ n none g s () _ _ hx).le
      simp only [ParseResult.success_pos, List.length_append] at hle
      omega

end

/-! ### The request and URI grammars -/

section

open Uri.Grammar Http.Grammar

/-- No metafunction of the URI and HTTP grammars uses `Force` or `Trim`. -/
theorem type_forceFree (m : Name) (hm : m ≠ .Value_) :
    (Name.type m).ForceFree (· ≠ .Value_) := by
  cases m <;>
    simp [Name.type, Rule.ForceFree, Rule.Each, param_type, userinfo_type, query_type,
      fragment_type, scheme_type, CRLF_type, LWS_type, comment_type, field_value_type,
      field_name_type, message_header_type, HTTP_major_version_type, HTTP_minor_version_type,
      extension_method_type, Star_type, pchar, unreserved, escaped, mark, alphanum, hex, uric,
      reserved, alpha, Uri.Grammar.digit, CRLF, LWS, ctext, TEXT, CTLs, quoted_pair, comment,
      field_content, Http.Grammar.token, separators, quoted_string, qdtext, Glue, field_name,
      field_value, DIGIT] at hm ⊢

/-- A URI reference that is accepted before a space is accepted before anything after it. -/
theorem streaming_stability_reference :
    Parses octets URI_reference (bytes "/a b" ++ bytes "/c") (.success 2) :=
  (streaming_stability octets (· ≠ .Value_) type_forceFree URI_reference
    (by simp [Rule.ForceFree, Rule.Each, URI_reference, absoluteURI, relativeURI, scheme, hier_part,
      opaque_part, net_path, abs_path, rel_path, authority, server, reg_name, userinfo_at, userinfo,
      hostport, host, hostname, IPv4Address, port, toplabel, domainlabel, path_segments,
      Uri.Grammar.segment, param, query, fragment, rel_segment, uric_no_slash, pchar, unreserved,
      escaped, mark, alphanum, hex, uric, reserved, alpha, Uri.Grammar.digit])
    (bytes "/a b") (bytes "/c")).1 _ ⟨60, by decide +kernel⟩ (by decide)

end

end Hittop
