/-
**Runs of a pair of ordered actions.**

The two sides of a pair never come to `second_` at once, though it is not atomic, and neither waits
for the other.  Which of them runs the second action is decided by the last exchange of the state,
and so is how much of it runs: a side that has called its function without the suffix `TC` drops the
continuation that the second action returns.

Main definitions:

* `Hittop.Pair.atSecond` — the places where a side is at `second_`;
* `Hittop.Pair.remaining` — a bound for the steps of a call.

Main results:

* `Hittop.Pair.Phase.not_both_atSecond` — the sides are not at `second_` at once;
* `Hittop.Pair.step_remaining_le` — steps of one side do not add to what is left to the other;
* `Hittop.pair_runs_in_order` — the second action runs once, after the first, on the side that
  `state()` tells.
-/

import Hittop.Concurrent.OrderedPair
import Hittop.Concurrent.WaitFree

set_option relaxedAutoImplicit false
set_option autoImplicit false

namespace Hittop

namespace Pair

open Sequence (Pc Event inOrder Waiting Passed Runs cost cost_le_one)

variable {u : Usage} {c c' : State} {s : Side} {k : ℕ} {spurious : Bool} {p : OrderedActionPair}
  {pc : Pc} {log : List (Side × Event)}

/-! ### What holds in every phase -/

theorem Early.log_isPrefix (hf : Early p pc log) :
    pc ≠ .returned ∧ log.map Prod.snd <+: inOrder 1 := by
  cases hf with
  | idle => exact ⟨nofun, List.nil_prefix⟩
  | runs hr =>
      obtain ⟨-, hreturned, hlog⟩ := hr.log_isPrefix
      exact ⟨hreturned, by simpa using hlog⟩

theorem Chain.log_isPrefix (hf : Chain u s pc log) :
    log.map Prod.snd <+: inOrder (u.last s + 1) := by
  cases hf with
  | tail k hk hlast =>
      rw [map_snd_ranBy]
      exact Sequence.inOrder_mono (by omega)
  | running k hk hlast =>
      rw [map_snd_ranBy]
      refine List.IsPrefix.trans ⟨[.finish k], ?_⟩ (Sequence.inOrder_mono (m := k + 1) (by omega))
      rw [Sequence.inOrder_succ, List.append_assoc]
      rfl
  | returned => exact ⟨[], by rw [List.append_nil, map_snd_ranBy]⟩

/-- What has been logged is a part of the actions run one after the other. -/
theorem Phase.log_isPrefix (hc : Phase u c) :
    c.log.map Prod.snd <+: inOrder (u.links + 2) := by
  have hlast : ∀ s, inOrder (u.last s + 1) <+: inOrder (u.links + 2) := fun s =>
    Sequence.inOrder_mono (Nat.succ_le_succ last_le)
  cases hc with
  | early hfirst hsecond =>
      exact hfirst.log_isPrefix.2.trans (Sequence.inOrder_mono (by omega))
  | handed hfirst hpair hsecond => exact hfirst.log_isPrefix.trans (hlast _)
  | passed hfirst hlog hsecond =>
      rw [hlog, map_snd_ranBy]
      exact Sequence.inOrder_mono (by omega)
  | late hfirst hpair hsecond => exact hsecond.log_isPrefix.trans (hlast _)

/-- Where both sides have returned, one of them has run the second action to its end. -/
theorem Phase.quiet (hc : Phase u c) (hfirst : c.first = .returned)
    (hsecond : c.second = .returned) :
    ∃ s : Side, c.pair.state = s.state ∧ c.log = ranBy s (inOrder (u.last s + 1)) := by
  have hend : ∀ s, Chain u s .returned c.log → c.log = ranBy s (inOrder (u.last s + 1)) := by
    intro s h
    generalize c.log = log at h
    cases h
    rfl
  cases hc with
  | early hfirst' => exact absurd hfirst hfirst'.log_isPrefix.1
  | handed hfirst' hpair => exact ⟨.first, hpair, hend _ (by rwa [hfirst] at hfirst')⟩
  | passed hfirst' hlog hsecond' => exact absurd hsecond hsecond'.ne_returned
  | late hfirst' hpair hsecond' => exact ⟨.second, hpair, hend _ (by rwa [hsecond] at hsecond')⟩

/-- The side is about to read or write `second_`, or runs what is or was in it. -/
def atSecond : Pc → Bool
  | .store _ | .swap => true
  | .first _ .runFirstCallsSecond => true
  | .tail k | .running k => 0 < k
  | _ => false

theorem Early.state_of_atSecond (hf : Early p pc log) (h : atSecond pc = true) :
    p.state = .runFirstCallsSecond := by
  cases hf with
  | idle => cases h
  | runs hr =>
    cases hr with
    | first current hcurrent =>
        rcases hcurrent with rfl | ⟨rfl, hstate⟩
        · cases h
        · exact hstate
    | _ => cases h

theorem Waiting.state_of_atSecond (hw : Waiting k p pc) (h : atSecond pc = true) :
    p.state = .initial := by
  cases hw with
  | store => rfl
  | _ => cases h

theorem Phase.not_both_atSecond (hc : Phase u c) (hfirst : atSecond c.first = true) :
    atSecond c.second = false := by
  refine Bool.eq_false_iff.2 fun hsecond => ?_
  cases hc with
  | early hfirst' hsecond' =>
      have hstate := hfirst'.state_of_atSecond hfirst
      rw [Waiting.state_of_atSecond hsecond' hsecond] at hstate
      cases hstate
  | handed hfirst' hpair hsecond' =>
      rw [hsecond'] at hsecond
      cases hsecond
  | passed hfirst' =>
      rw [hfirst'] at hfirst
      cases hfirst
  | late hfirst' =>
      rw [hfirst'] at hfirst
      cases hfirst

/-! ### Steps that are left -/

/-- The steps that a call has left at most.  A continuation takes two. -/
def remaining (u : Usage) : Pc → ℕ
  | .idle => 2 * u.links + 7
  | .load => 2 * u.links + 6
  | .store _ => 2 * u.links + 5
  | .cas _ => 2 * u.links + 4
  | .swap => 2 * u.links + 3
  | .tail 0 => 2 * u.links + 7
  | .tail (k + 1) => 2 * (u.links - k) + 2
  | .running 0 => 2 * u.links + 6
  | .running (k + 1) => 2 * (u.links - k) + 1
  | .firstLoad _ => 2 * u.links + 5
  | .first _ .runFirstCallsSecond => 2 * u.links + 3
  | .first _ _ => 2 * u.links + 4
  | .returned => 0

/-- An exchange that fails spuriously does not count. -/
def Act.isStepOf (s : Side) : Act → Bool
  | .advance t false => t == s
  | _ => false

theorem Early.current {current : PairState} (hf : Early p (.first k current) log) :
    current = .initial ∨ current = .runFirstCallsSecond ∧ p.state = .runFirstCallsSecond := by
  cases hf with
  | runs hr =>
    cases hr with
    | first current hcurrent => exact hcurrent

theorem Waiting.current {current : PairState} (hw : Waiting k p (.cas current)) :
    current = .initial ∧ p.state = .initial := by
  cases hw
  exact ⟨rfl, rfl⟩

theorem Passed.current {current : PairState} (hw : Passed k p (.cas current)) :
    current = .initial ∧ p.state = .runSecondCallsSecond := by
  cases hw
  exact ⟨rfl, rfl⟩

theorem Waiting.ne_swap (hw : Waiting k p pc) : pc ≠ .swap := by
  cases hw <;> nofun

theorem Passed.second_of_swap (hw : Passed k p .swap) : p.second = some k := by
  cases hw
  rfl

/-- What the first side has seen of the state is the initial one, or it finds the second action. -/
theorem Phase.first_current {current : PairState} (hc : Phase u c)
    (h : c.first = .first k current) :
    current = .initial ∧ (c.pair.state = .initial ∨ c.pair.state = .runFirstCallsSecond) ∨
      current = .runFirstCallsSecond ∧ c.pair.second = some 1 := by
  cases hc with
  | early hfirst hsecond =>
      rw [h] at hfirst
      rcases hfirst.current with rfl | ⟨rfl, hstate⟩
      · exact .inl ⟨rfl, hsecond.state⟩
      · exact .inr ⟨rfl, (Waiting.left_of_state hsecond hstate).1⟩
  | handed hfirst =>
      rw [h] at hfirst
      cases hfirst
  | passed hfirst => simp [h] at hfirst
  | late hfirst => simp [h] at hfirst

/-- What the second side has seen is the initial one. -/
theorem Phase.second_current {current : PairState} (hc : Phase u c) (h : c.second = .cas current) :
    current = .initial ∧ (c.pair.state = .initial ∨ c.pair.state = .runSecondCallsSecond) := by
  cases hc with
  | early hfirst hsecond =>
      rw [h] at hsecond
      obtain ⟨hcurrent, hstate⟩ := Waiting.current hsecond
      exact ⟨hcurrent, .inl hstate⟩
  | handed hfirst hpair hsecond => simp [h] at hsecond
  | passed hfirst hlog hsecond =>
      rw [h] at hsecond
      obtain ⟨hcurrent, hstate⟩ := Passed.current hsecond
      exact ⟨hcurrent, .inr hstate⟩
  | late hfirst hpair hsecond =>
      rw [h] at hsecond
      cases hsecond

theorem Phase.swap_second (hc : Phase u c) (h : c.second = .swap) : c.pair.second = some 1 := by
  cases hc with
  | early hfirst hsecond =>
      rw [h] at hsecond
      exact absurd rfl (Waiting.ne_swap hsecond)
  | handed hfirst hpair hsecond => simp [h] at hsecond
  | passed hfirst hlog hsecond =>
      rw [h] at hsecond
      exact Passed.second_of_swap hsecond
  | late hfirst hpair hsecond =>
      rw [h] at hsecond
      cases hsecond

theorem remaining_resume : remaining u (u.resume s k) + 1 ≤ remaining u (.running k) := by
  rw [Usage.resume]
  split
  case isTrue h => cases k <;> simp only [remaining] <;> omega
  case isFalse h => cases k <;> simp only [remaining] <;> omega

/-- The call of the side `s` has come closer to its end by a step, and the other side has not
moved. -/
structure Descends (u : Usage) (c : State) (s : Side) (spurious : Bool) (n : ℕ) (c' : State) :
    Prop where
  remaining_le : remaining u (c'.pc s) + cost spurious ≤ n
  other : ∀ t ≠ s, c'.pc t = c.pc t

theorem descends_setPc (d : State) (q : Pc) {n : ℕ} (h : setPc d s q = c') (hd : d.pc = c.pc)
    (hle : remaining u q + cost spurious ≤ n) : Descends u c s spurious n c' := by
  subst h
  refine ⟨by rwa [setPc_pc], fun t hne => ?_⟩
  rw [setPc_pc_of_ne hne, hd]

theorem descends_takeSecond {n : ℕ} (h : c.pair.second = some 1)
    (hn : 2 * u.links + 3 ≤ n) : Descends u c s spurious n (takeSecond u c s) := by
  obtain ⟨p, -, htake⟩ := takeSecond_some (u := u) (s := s) h
  have hcost : cost spurious ≤ 1 := cost_le_one
  refine descends_setPc _ _ htake.symm (funext fun t => setPair_pc) ?_
  simp only [remaining]
  omega

theorem advanceFirst_descends (hc : Phase u c) (h : advanceFirst u c spurious = some c') :
    Descends u c .first spurious (remaining u c.first) c' := by
  have hcost : cost spurious ≤ 1 := cost_le_one
  rw [advanceFirst] at h
  cases hpc : c.first with
  | tail k =>
      rw [hpc] at h
      refine descends_setPc _ _ (Option.some.inj h) (funext fun t => record_pc) ?_
      cases k <;> simp only [remaining] <;> omega
  | running k =>
      rw [hpc] at h
      cases k with
      | zero =>
          refine descends_setPc _ _ (Option.some.inj h) (funext fun t => record_pc) ?_
          simp only [remaining]
          omega
      | succ k =>
          exact descends_setPc _ _ (Option.some.inj h) (funext fun t => record_pc)
            (Nat.le_trans (Nat.add_le_add_left hcost _) remaining_resume)
  | firstLoad k =>
      rw [hpc] at h
      refine descends_setPc _ _ (Option.some.inj h) rfl ?_
      cases c.pair.state <;> simp only [remaining] <;> omega
  | first k current =>
      rw [hpc] at h
      rcases hc.first_current hpc with ⟨rfl, hstate | hstate⟩ | ⟨rfl, hsome⟩
      · cases spurious with
        | false =>
            refine descends_setPc (setPair c ⟨.runSecondCallsSecond, c.pair.second⟩)
              (.returned) ?_ (funext fun t => setPair_pc) ?_
            · simpa [OrderedActionPair.compareExchangeWeak, hstate] using h
            · simp only [remaining]
              omega
        | true =>
            refine descends_setPc c (.first k .initial) ?_ rfl (Nat.le_refl _)
            simpa [OrderedActionPair.compareExchangeWeak, hstate] using h
      · refine descends_setPc c (.first k .runFirstCallsSecond) ?_ rfl ?_
        · simpa [OrderedActionPair.compareExchangeWeak, hstate] using h
        · simp only [remaining]
          omega
      · obtain rfl : takeSecond u c .first = c' := by simpa using h
        exact descends_takeSecond hsome (Nat.le_refl _)
  | _ => simp [hpc] at h

theorem advanceSecond_descends (hc : Phase u c) (h : advanceSecond u c spurious = some c') :
    Descends u c .second spurious (remaining u c.second) c' := by
  have hcost : cost spurious ≤ 1 := cost_le_one
  rw [advanceSecond] at h
  cases hpc : c.second with
  | load =>
      rw [hpc] at h
      by_cases hstate : c.pair.state = .runSecondCallsSecond
      · refine descends_setPc c (.tail 1) (by simpa [hstate] using h) rfl ?_
        simp only [remaining]
        omega
      · refine descends_setPc c (.store c.pair.state) (by simpa [hstate] using h) rfl
          ?_
        simp only [remaining]
        omega
  | store current =>
      rw [hpc] at h
      refine descends_setPc _ _ (Option.some.inj h) (funext fun t => setPair_pc) ?_
      simp only [remaining]
      omega
  | cas current =>
      rw [hpc] at h
      obtain ⟨rfl, hstate | hstate⟩ := hc.second_current hpc
      · cases spurious with
        | false =>
            refine descends_setPc (setPair c ⟨.runFirstCallsSecond, c.pair.second⟩)
              (.returned) ?_ (funext fun t => setPair_pc) ?_
            · simpa [OrderedActionPair.compareExchangeWeak, hstate] using h
            · simp only [remaining]
              omega
        | true =>
            refine descends_setPc c (.cas .initial) ?_ rfl (Nat.le_refl _)
            simpa [OrderedActionPair.compareExchangeWeak, hstate] using h
      · refine descends_setPc c (.swap) ?_ rfl ?_
        · simpa [OrderedActionPair.compareExchangeWeak, hstate] using h
        · simp only [remaining]
          omega
  | swap =>
      rw [hpc] at h
      obtain rfl := Option.some.inj h
      exact descends_takeSecond (hc.swap_second hpc) (Nat.le_refl _)
  | tail k =>
      rw [hpc] at h
      refine descends_setPc _ _ (Option.some.inj h) (funext fun t => record_pc) ?_
      cases k <;> simp only [remaining] <;> omega
  | running k =>
      rw [hpc] at h
      exact descends_setPc _ _ (Option.some.inj h) (funext fun t => record_pc)
        (Nat.le_trans (Nat.add_le_add_left hcost _) remaining_resume)
  | _ => simp [hpc] at h

theorem advance_descends (hc : Phase u c) (h : step u c (.advance s spurious) = some c') :
    Descends u c s spurious (remaining u (c.pc s)) c' := by
  cases s with
  | first => exact advanceFirst_descends hc h
  | second => exact advanceSecond_descends hc h

/-- A step of a side counts, and no step of the other one adds to what is left. -/
theorem step_remaining_le {a : Act} (hc : Phase u c) (h : step u c a = some c') :
    remaining u (c'.pc s) + (if a.isStepOf s then 1 else 0) ≤ remaining u (c.pc s) := by
  cases a with
  | call t =>
      suffices hle : remaining u (c'.pc s) ≤ remaining u (c.pc s) by simpa [Act.isStepOf] using hle
      cases t with
      | first =>
          obtain ⟨hidle, rfl⟩ : c.first = .idle ∧ setPc c .first (.tail 0) = c' := by
            simpa [step] using h
          cases s with
          | first => simp [State.pc, hidle, remaining]
          | second => exact Nat.le_refl _
      | second =>
          obtain ⟨hidle, rfl⟩ : c.second = .idle ∧ setPc c .second .load = c' := by
            simpa [step] using h
          cases s with
          | first => exact Nat.le_refl _
          | second => simp [State.pc, hidle, remaining]
  | advance t spurious =>
      have hdesc := advance_descends hc h
      rcases eq_or_ne s t with rfl | hne
      · have hle := hdesc.remaining_le
        cases spurious <;> simpa [Act.isStepOf, cost] using hle
      · rw [hdesc.other s hne]
        cases spurious <;> simp [Act.isStepOf, hne.symm]

theorem run_remaining_le {acts : List Act} (hc : Phase u c)
    (h : Run.run (step u) c acts = some c') :
    remaining u (c'.pc s) + acts.countP (·.isStepOf s) ≤ remaining u (c.pc s) := by
  induction acts generalizing c with
  | nil =>
      obtain rfl : c = c' := by simpa using h
      exact Nat.le_refl _
  | cons a acts ih =>
      obtain ⟨d, hd, h⟩ := Option.bind_eq_some_iff.1 h
      have hstep := step_remaining_le (s := s) hc hd
      have hrest := ih (step_phase hc hd).1 h
      rw [List.countP_cons]
      omega

/-- The places that the call of a side comes to. -/
def Side.comesTo : Side → Pc → Bool
  | .first, .load | .first, .store _ | .first, .cas _ | .first, .swap => false
  | .second, .firstLoad _ | .second, .first _ _ => false
  | _, _ => true

theorem Early.comesTo (hf : Early p pc log) : Side.first.comesTo pc = true := by
  cases hf with
  | idle => rfl
  | runs hr => cases hr <;> rfl

theorem Chain.comesTo (hf : Chain u s pc log) : s.comesTo pc = true := by
  cases hf <;> cases s <;> rfl

theorem Waiting.comesTo (hw : Waiting k p pc) : Side.second.comesTo pc = true := by
  cases hw <;> rfl

theorem Passed.comesTo (hw : Passed k p pc) : Side.second.comesTo pc = true := by
  cases hw <;> rfl

theorem Phase.comesTo (hc : Phase u c) :
    Side.first.comesTo c.first = true ∧ Side.second.comesTo c.second = true := by
  cases hc with
  | early hfirst hsecond => exact ⟨hfirst.comesTo, Waiting.comesTo hsecond⟩
  | handed hfirst hpair hsecond => exact ⟨hfirst.comesTo, by rw [hsecond]; rfl⟩
  | passed hfirst hlog hsecond => exact ⟨by rw [hfirst]; rfl, Passed.comesTo hsecond⟩
  | late hfirst hpair hsecond => exact ⟨by rw [hfirst]; rfl, hsecond.comesTo⟩

theorem advanceFirst_isSome (h : Side.first.comesTo c.first = true) (hidle : c.first ≠ .idle)
    (hreturned : c.first ≠ .returned) : (advanceFirst u c spurious).isSome = true := by
  rw [advanceFirst]
  generalize c.first = pc at h hidle hreturned ⊢
  cases pc with
  | idle => exact absurd rfl hidle
  | returned => exact absurd rfl hreturned
  | running k => cases k <;> rfl
  | first k current =>
      dsimp only
      split
      · rfl
      · split <;> rfl
  | tail k => rfl
  | firstLoad k => rfl
  | _ => cases h

theorem advanceSecond_isSome (h : Side.second.comesTo c.second = true) (hidle : c.second ≠ .idle)
    (hreturned : c.second ≠ .returned) : (advanceSecond u c spurious).isSome = true := by
  rw [advanceSecond]
  generalize c.second = pc at h hidle hreturned ⊢
  cases pc with
  | idle => exact absurd rfl hidle
  | returned => exact absurd rfl hreturned
  | firstLoad k => cases h
  | first k current => cases h
  | load =>
      dsimp only
      split <;> rfl
  | cas current =>
      dsimp only
      split
      · rfl
      · split <;> rfl
  | _ => rfl

/-- A call that is under way can take its next step. -/
theorem Phase.advance_isSome (hc : Phase u c) (hidle : c.pc s ≠ .idle)
    (hreturned : c.pc s ≠ .returned) : (step u c (.advance s spurious)).isSome = true := by
  cases s with
  | first => exact advanceFirst_isSome hc.comesTo.1 hidle hreturned
  | second => exact advanceSecond_isSome hc.comesTo.2 hidle hreturned

end Pair

/-- Whatever the threads of the two sides do, what has run so far is a part of the first action and
the continuations of the second one, run one after the other; nobody calls an empty `second_`, and
the sides are never both at it.  A call that is under way can always take a step, and takes a
bounded number of them, failed spurious exchanges apart.  Where both have returned, the side that
`state()` tells has run the second action: all of its continuations, or without the suffix only the
first one. -/
theorem pair_runs_in_order (u : Pair.Usage) (acts : List Pair.Act) (c : Pair.State)
    (h : Run.run (Pair.step u) .init acts = some c) :
    (c.log.map Prod.snd <+: Sequence.inOrder (u.links + 2) ∧ c.thrown = false ∧
      (Pair.atSecond c.first = true → Pair.atSecond c.second = false)) ∧
    (∀ s, (c.pc s ≠ .idle → c.pc s ≠ .returned →
        ∀ spurious, (Pair.step u c (.advance s spurious)).isSome) ∧
      acts.countP (·.isStepOf s) ≤ 2 * u.links + 7) ∧
    (c.first = .returned → c.second = .returned →
      ∃ s : Pair.Side, c.pair.state = s.state ∧
        c.log = Pair.ranBy s (Sequence.inOrder (u.last s + 1))) := by
  have hinit : Pair.Phase u .init := .early .idle .idle
  obtain ⟨hc, hthrown⟩ : Pair.Phase u c ∧ c.thrown = false := by
    refine Run.run_invariant (I := fun c => Pair.Phase u c ∧ c.thrown = false)
      (fun c a c' hc h => ?_) h ⟨hinit, rfl⟩
    obtain ⟨hphase, hthrown⟩ := Pair.step_phase hc.1 h
    exact ⟨hphase, hthrown.trans hc.2⟩
  refine ⟨⟨hc.log_isPrefix, hthrown, hc.not_both_atSecond⟩, fun s => ⟨?_, ?_⟩, hc.quiet⟩
  · exact fun hidle hreturned spurious => hc.advance_isSome hidle hreturned
  · have hle := Pair.run_remaining_le (s := s) hinit h
    have hidle : Pair.remaining u (Pair.State.init.pc s) = 2 * u.links + 7 := by cases s <;> rfl
    omega

/-- `RunSecondTC` leaves an action that returns a continuation, and `RunFirst` drops what it
returns. -/
theorem pair_runs_in_order_dropped :
    ∃ c, Run.run (Pair.step ⟨false, true, 1, by decide⟩) .init
        ([.call .second] ++ List.replicate 3 (.advance .second false) ++ [.call .first] ++
          List.replicate 6 (.advance .first false)) = some c ∧
      ∃ s : Pair.Side, c.pair.state = s.state ∧
        c.log =
          Pair.ranBy s (Sequence.inOrder (Pair.Usage.last ⟨false, true, 1, by decide⟩ s + 1)) := by
  have hrun : Run.run (Pair.step ⟨false, true, 1, by decide⟩) .init
        ([.call .second] ++ List.replicate 3 (.advance .second false) ++ [.call .first] ++
          List.replicate 6 (.advance .first false)) =
      some ⟨⟨.runFirstCallsSecond, some 1⟩, .returned, .returned, false,
        Pair.ranBy .first (Sequence.inOrder 2)⟩ := by
    decide +kernel
  exact ⟨_, hrun, (pair_runs_in_order _ _ _ hrun).2.2 rfl rfl⟩

end Hittop
