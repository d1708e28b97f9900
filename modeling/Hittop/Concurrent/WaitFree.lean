/-
**Ordered actions never wait.**

The member `second_` of a pair is not atomic: it is written before an exchange of the state and
taken back after the state has been seen, so that no two threads come to it at once.  No thread
waits for another one either.  What an invocation may have to do more than its own action is to run
the continuations that others have left to it, and these are actions behind its own.

Main definitions:

* `Hittop.Sequence.Pc.touches` — the pair whose `second_` the next step reads or writes;
* `Hittop.Sequence.Pc.remaining` — a bound for the steps of an invocation;
* `Hittop.Sequence.Act.isStepOf` — a step of an invocation whose exchange does not fail spuriously.

Main results:

* `Hittop.second_race_free` — no two threads are at the `second_` of a pair;
* `Hittop.Sequence.step_remaining_le` — steps of the others do not add to what is left;
* `Hittop.actions_wait_free` — an invocation returns after a bounded number of its own steps.
-/

import Hittop.Concurrent.OrderedActions

set_option relaxedAutoImplicit false
set_option autoImplicit false

namespace Hittop

namespace Sequence

namespace Pc

/-- The pair whose `second_` the next step of the invocation number `i` reads or writes. -/
def touches (i : ℕ) : Pc → Option ℕ
  | .store _ => some i
  | .swap => some i
  | .first k .runFirstCallsSecond => some (k + 1)
  | _ => none

/-- The steps that the invocation number `i` has left at most, where `n` actions are wrapped.  Each
action it runs takes five. -/
def remaining (n i : ℕ) : Pc → ℕ
  | .idle => 4 + 5 * (n - i)
  | .load => 4 + 5 * (n - i)
  | .store _ => 3 + 5 * (n - i)
  | .cas _ => 2 + 5 * (n - i)
  | .swap => 1 + 5 * (n - i)
  | .tail k => 5 * (n - k)
  | .running k => 4 + 5 * (n - (k + 1))
  | .firstLoad k => 3 + 5 * (n - (k + 1))
  | .first k .runFirstCallsSecond => 1 + 5 * (n - (k + 1))
  | .first k _ => 2 + 5 * (n - (k + 1))
  | .returned => 0

end Pc

/-- A step of the invocation number `i` whose exchange, if it is one, does not fail spuriously. -/
def Act.isStepOf (i : ℕ) : Act → Bool
  | .advance j false => j == i
  | _ => false

variable {c c' : State} {i j k m n q : ℕ} {a : Act} {p next : OrderedActionPair} {pc : Pc}
  {log : List Event} {spurious : Bool}

/-! ### The member `second_` -/

theorem Waiting.touches (hw : Waiting k p pc) (h : pc.touches k = some q) :
    q = k ∧ p.state = .initial := by
  cases hw with
  | store => exact ⟨(Option.some.inj h).symm, rfl⟩
  | _ => cases h

theorem Passed.touches (hw : Passed k p pc) (h : pc.touches k = some q) : q = k := by
  cases hw with
  | store => exact (Option.some.inj h).symm
  | swap => exact (Option.some.inj h).symm
  | _ => cases h

/-- The thread at the front comes to the next pair after the second side has left it. -/
theorem Runs.touches (hr : Runs m next pc log) (h : pc.touches i = some q) :
    q = m + 1 ∧ next.state = .runFirstCallsSecond := by
  cases hr with
  | first current hcurrent =>
      rcases hcurrent with rfl | ⟨rfl, hstate⟩
      · cases h
      · exact ⟨(Option.some.inj h).symm, hstate⟩
  | _ => cases h

theorem Front.touches_ne (hf : Front c) (hij : i ≠ j) (hi : (c.pc i).touches i = some q) :
    (c.pc j).touches j ≠ some q := by
  intro hj
  have hreturned : ∀ l, c.pc l = .returned → (c.pc l).touches l ≠ some q := by
    intro l hl h
    rw [hl] at h
    cases h
  cases hf with
  | gap m hlog before here after =>
      -- every thread is at the pair of its own action
      have hown : ∀ l, (c.pc l).touches l = some q → q = l := by
        intro l hl
        rcases Nat.lt_trichotomy l m with hlt | rfl | hgt
        · exact absurd hl (hreturned l (before l hlt))
        · exact here.touches hl
        · exact ((after l hgt).touches hl).1
      exact hij ((hown i hi).symm.trans (hown j hj))
  | runner m r hr runs before after =>
      -- a thread behind the runner is at its own pair, which the second side has not left
      have hother : ∀ l, l ≠ r → (c.pc l).touches l = some q →
          q = l ∧ m < l ∧ (c.pairs l).state = .initial := by
        intro l hne hl
        rcases Nat.lt_or_ge m l with hgt | hle
        · have ht := (after l hgt).touches hl
          exact ⟨ht.1, hgt, ht.2⟩
        · exact absurd hl (hreturned l (before l hle hne))
      have hrunner : ∀ l, l ≠ r → (c.pc l).touches l = some q →
          (c.pc r).touches r ≠ some q := by
        intro l hne hl hrq
        obtain ⟨hq, -, hinitial⟩ := hother l hne hl
        obtain ⟨hq', hstate⟩ := runs.touches hrq
        rw [← hq, hq', hstate] at hinitial
        cases hinitial
      rcases eq_or_ne i r with rfl | hir
      · exact hrunner j hij.symm hj hi
      · rcases eq_or_ne j r with rfl | hjr
        · exact hrunner i hir hi hj
        · exact hij ((hother i hir hi).1.symm.trans (hother j hjr hj).1)

/-! ### Steps of one thread -/

/-- An exchange that fails spuriously does not count. -/
def cost (spurious : Bool) : ℕ := if spurious then 0 else 1

theorem cost_le_one : cost spurious ≤ 1 := by
  cases spurious <;> decide

theorem advance_remaining_waiting (hw : Waiting i (c.pairs i) (c.pc i))
    (h : advance c i spurious = some c') :
    (c'.pc i).remaining n i + cost spurious ≤ (c.pc i).remaining n i := by
  have hcost : cost spurious ≤ 1 := cost_le_one
  rw [advance] at h
  generalize c.pairs i = p at hw h
  generalize c.pc i = pc at hw h ⊢
  cases hw with
  | idle => simp at h
  | load =>
      obtain rfl : setPc c i (.store .initial) = c' := by
        simpa [OrderedActionPair.new] using h
      simp only [setPc_pc, if_true, Pc.remaining]
      omega
  | store =>
      obtain rfl : _ = c' := by simpa using h
      simp only [setPc_pc, if_true, Pc.remaining]
      omega
  | cas =>
      cases spurious with
      | false =>
          obtain rfl : _ = c' := by simpa [OrderedActionPair.compareExchangeWeak] using h
          simp only [setPc_pc, if_true, Pc.remaining]
          omega
      | true =>
          obtain rfl : _ = c' := by simpa [OrderedActionPair.compareExchangeWeak] using h
          simp [Pc.remaining, cost]
  | left => simp at h

/-- The second side finds out that the first one has gone in one exchange, whether it fails
spuriously or not. -/
theorem advance_remaining_passed (hw : Passed i (c.pairs i) (c.pc i))
    (h : advance c i spurious = some c') :
    (c'.pc i).remaining n i + cost spurious ≤ (c.pc i).remaining n i := by
  have hcost : cost spurious ≤ 1 := cost_le_one
  rw [advance] at h
  generalize c.pairs i = p at hw h
  generalize c.pc i = pc at hw h ⊢
  cases hw with
  | idle => simp at h
  | load =>
      obtain rfl : _ = c' := by simpa using h
      simp only [setPc_pc, if_true, Pc.remaining]
      omega
  | store =>
      obtain rfl : _ = c' := by simpa using h
      simp only [setPc_pc, if_true, Pc.remaining]
      omega
  | cas =>
      obtain rfl : setPc c i .swap = c' := by
        simpa [OrderedActionPair.compareExchangeWeak] using h
      simp only [setPc_pc, if_true, Pc.remaining]
      omega
  | swap =>
      obtain rfl : _ = c' := by simpa using h
      simp only [setPc_pc, if_true, resume, Pc.remaining]
      omega

/-- The thread at the front runs the action `m`, which has been wrapped, and goes on behind it. -/
theorem advance_remaining_runner (runs : Runs m (c.pairs (m + 1)) (c.pc i) c.log)
    (next : Waiting (m + 1) (c.pairs (m + 1)) (c.pc (m + 1))) (hm : m < n)
    (h : advance c i spurious = some c') :
    (c'.pc i).remaining n i + cost spurious ≤ (c.pc i).remaining n i := by
  have hcost : cost spurious ≤ 1 := cost_le_one
  have hstate := next.state
  rw [advance] at h
  generalize c.pc i = pc at runs h ⊢
  generalize c.log = log at runs
  cases runs with
  | tail =>
      obtain rfl : _ = c' := by simpa using h
      simp only [setPc_pc, if_true, Pc.remaining]
      omega
  | running =>
      obtain rfl : _ = c' := by simpa using h
      simp only [setPc_pc, if_true, Pc.remaining]
      omega
  | firstLoad =>
      obtain rfl : _ = c' := by simpa using h
      rcases hstate with hstate | hstate
      · simp only [setPc_pc, if_true, hstate, Pc.remaining]
        omega
      · simp only [setPc_pc, if_true, hstate, Pc.remaining]
        omega
  | first current hcurrent =>
      rcases hcurrent with rfl | ⟨rfl, hsecond⟩
      · rcases hstate with hstate | hstate
        · -- nobody has come to the next pair: the exchange succeeds or fails spuriously
          cases spurious with
          | false =>
              obtain rfl : _ = c' := by
                simpa [OrderedActionPair.compareExchangeWeak, hstate] using h
              simp only [setPc_pc, if_true, Pc.remaining]
              omega
          | true =>
              obtain rfl : _ = c' := by
                simpa [OrderedActionPair.compareExchangeWeak, hstate] using h
              simp [Pc.remaining, cost]
        · -- the exchange fails, and the thread takes over the continuation that is left there
          obtain rfl : setPc c i (.first m .runFirstCallsSecond) = c' := by
            simpa [OrderedActionPair.compareExchangeWeak, hstate] using h
          simp only [setPc_pc, if_true, Pc.remaining]
          omega
      · obtain rfl : _ = c' := by simpa using h
        have hleft : (c.pairs (m + 1)).second = some (m + 1) := by
          generalize c.pairs (m + 1) = p at next hsecond ⊢
          generalize c.pc (m + 1) = pc at next
          cases next with
          | left => rfl
          | _ => simp [OrderedActionPair.new] at hsecond
        simp only [setPc_pc, if_true, hleft, resume, Pc.remaining]
        omega

/-- Every step of an invocation that does not fail spuriously leaves less to be done. -/
theorem advance_remaining (hc : Inv c) (hn : c.wrapped ≤ n) (h : advance c i spurious = some c') :
    (c'.pc i).remaining n i + cost spurious ≤ (c.pc i).remaining n i := by
  cases hc.front with
  | gap m hlog before here after =>
      rcases Nat.lt_trichotomy i m with hlt | rfl | hgt
      · rw [advance_returned (before i hlt)] at h
        cases h
      · exact advance_remaining_passed here h
      · exact advance_remaining_waiting (after i hgt) h
  | runner m j hj runs before after =>
      rcases Nat.lt_or_ge m i with hgt | hle
      · exact advance_remaining_waiting (after i hgt) h
      · rcases eq_or_ne i j with rfl | hne
        · -- the action at the front has been invoked, by this thread or by one that has returned
          have hinvoked : c.pc m ≠ .idle := by
            rcases eq_or_ne m i with rfl | hmi
            · exact runs.log_isPrefix.1
            · rw [before m (Nat.le_refl m) hmi]
              nofun
          have hm : m < n := Nat.lt_of_lt_of_le (hc.invoked m hinvoked) hn
          exact advance_remaining_runner runs (after (m + 1) (Nat.lt_succ_self m)) hm h
        · rw [advance_returned (before i hle hne)] at h
          cases h

/-- An invocation that is under way is never held up. -/
theorem advance_isSome (hidle : c.pc i ≠ .idle) (hreturned : c.pc i ≠ .returned) :
    (advance c i spurious).isSome := by
  rw [advance]
  cases hpc : c.pc i with
  | idle => exact absurd hpc hidle
  | returned => exact absurd hpc hreturned
  | load => dsimp only; split <;> rfl
  | cas current =>
      dsimp only
      split
      · rfl
      · split <;> rfl
  | first k current =>
      dsimp only
      split
      · rfl
      · split <;> rfl
  | _ => rfl

/-! ### Runs -/

theorem step_wrapped_le (h : step c a = some c') : c.wrapped ≤ c'.wrapped := by
  cases a with
  | wrapNext =>
      obtain rfl : _ = c' := by simpa [step] using h
      exact Nat.le_succ _
  | invoke k =>
      obtain ⟨-, rfl⟩ : _ ∧ setPc c k .load = c' := by simpa [step] using h
      exact Nat.le_refl _
  | advance i spurious => exact Nat.le_of_eq (advance_frame h).2.1.symm

theorem run_wrapped_le {acts : List Act} (h : Run.run step c acts = some c') :
    c.wrapped ≤ c'.wrapped :=
  Run.run_invariant (I := fun s => c.wrapped ≤ s.wrapped)
    (fun _ _ _ hs h => Nat.le_trans hs (step_wrapped_le h)) h (Nat.le_refl _)

/-- What the others do, and what is wrapped meanwhile, does not add to what is left to be done. -/
theorem step_remaining_le (hc : Inv c) (hn : c.wrapped ≤ n) (h : step c a = some c') :
    (c'.pc i).remaining n i + (if a.isStepOf i then 1 else 0) ≤ (c.pc i).remaining n i := by
  cases a with
  | wrapNext =>
      obtain rfl : _ = c' := by simpa [step] using h
      exact Nat.le_refl _
  | invoke k =>
      obtain ⟨⟨-, hidle⟩, rfl⟩ : (k < c.wrapped ∧ c.pc k = .idle) ∧ setPc c k .load = c' := by
        simpa [step] using h
      rcases eq_or_ne i k with rfl | hne
      · simp [Act.isStepOf, Pc.remaining, hidle]
      · simp [Act.isStepOf, hne]
  | advance j spurious =>
      rcases eq_or_ne i j with rfl | hne
      · have hrem := advance_remaining (n := n) hc hn h
        cases spurious with
        | false => simpa [Act.isStepOf, cost] using hrem
        | true => simpa [Act.isStepOf, cost] using hrem
      · have hpc := (advance_frame h).2.2 i hne
        cases spurious with
        | false => simp [Act.isStepOf, hpc, hne.symm]
        | true => simp [Act.isStepOf, hpc]

theorem run_remaining_le {acts : List Act} (hc : Inv c) (h : Run.run step c acts = some c') :
    (c'.pc i).remaining c'.wrapped i + acts.countP (·.isStepOf i) ≤
      (c.pc i).remaining c'.wrapped i := by
  induction acts generalizing c with
  | nil =>
      obtain rfl : c = c' := by simpa using h
      simp
  | cons a acts ih =>
      obtain ⟨s, hs, h⟩ := Option.bind_eq_some_iff.1 h
      have hn := Nat.le_trans (step_wrapped_le hs) (run_wrapped_le h)
      have hle := step_remaining_le (i := i) hc hn hs
      have htail := ih (step_inv hc hs) h
      rw [List.countP_cons]
      omega

end Sequence

/-- However the wrappers of a sequence are invoked, no two threads are about to read or write
`second_` of the same pair, which is not atomic. -/
theorem second_race_free (failures : List Bool) (p : OrderedActionPair)
    (hp : OrderedActionPair.runFirst .new .initial failures = some p) (c : Sequence.State)
    (h : Run.Reachable Sequence.step (.init p) c) (i j q : ℕ) (hij : i ≠ j)
    (hi : (c.pc i).touches i = some q) : (c.pc j).touches j ≠ some q := by
  have hc : Sequence.Inv c :=
    h.invariant (fun _ _ _ hc h => Sequence.step_inv hc h) (Sequence.init_inv hp)
  exact hc.front.touches_ne hij hi

/-- The first thread is about to take over what the second one, which is past its exchange, has left
in `second_` of pair 1. -/
theorem second_race_free_chained :
    ∃ c, Run.run Sequence.step (.init ⟨.runSecondCallsSecond, none⟩)
        ([.wrapNext, .wrapNext, .invoke 1] ++ List.replicate 3 (.advance 1 false) ++
          [.invoke 0] ++ List.replicate 4 (.advance 0 false)) = some c ∧
      (c.pc 0).touches 0 = some 1 ∧ (c.pc 1).touches 1 ≠ some 1 := by
  have hsome : ((Run.run Sequence.step (.init ⟨.runSecondCallsSecond, none⟩)
        ([.wrapNext, .wrapNext, .invoke 1] ++ List.replicate 3 (.advance 1 false) ++
          [.invoke 0] ++ List.replicate 4 (.advance 0 false))).map
        fun c => (c.pc 0).touches 0) = some (some 1) := by
    decide +kernel
  obtain ⟨c, h, htouches⟩ := Option.map_eq_some_iff.1 hsome
  exact ⟨c, h, htouches, second_race_free [true, false] _ rfl c ⟨_, h⟩ 0 1 1 (by decide) htouches⟩

/-- An invocation that is under way can always take a step, and it has returned after a number of
them that depends only on the actions that are wrapped at its own place and behind: the actions of
other threads do not hold it up, and spurious failures apart it does not try again. -/
theorem actions_wait_free (failures : List Bool) (p : OrderedActionPair)
    (hp : OrderedActionPair.runFirst .new .initial failures = some p) (acts : List Sequence.Act)
    (c : Sequence.State) (h : Run.run Sequence.step (.init p) acts = some c) (i : ℕ) :
    (c.pc i ≠ .idle → c.pc i ≠ .returned →
        ∀ spurious, (Sequence.advance c i spurious).isSome) ∧
      acts.countP (·.isStepOf i) ≤ 4 + 5 * (c.wrapped - i) := by
  refine ⟨fun hidle hreturned spurious => Sequence.advance_isSome hidle hreturned, ?_⟩
  exact Nat.le_trans (Nat.le_add_left _ _)
    (Sequence.run_remaining_le (i := i) (Sequence.init_inv hp) h)

/-- The thread of the first of two actions runs both of them. -/
theorem actions_wait_free_chained :
    ∃ c, Run.run Sequence.step (.init ⟨.runSecondCallsSecond, none⟩)
        ([.wrapNext, .wrapNext, .invoke 1] ++ List.replicate 3 (.advance 1 false) ++
          [.invoke 0] ++ List.replicate 9 (.advance 0 false)) = some c ∧
      9 ≤ 4 + 5 * (c.wrapped - 0) := by
  have hsome : (Run.run Sequence.step (.init ⟨.runSecondCallsSecond, none⟩)
        ([.wrapNext, .wrapNext, .invoke 1] ++ List.replicate 3 (.advance 1 false) ++
          [.invoke 0] ++ List.replicate 9 (.advance 0 false))).isSome := by
    decide +kernel
  obtain ⟨c, h⟩ := Option.isSome_iff_exists.1 hsome
  exact ⟨c, h, (actions_wait_free [true, false] _ rfl _ c h 0).2⟩

end Hittop
