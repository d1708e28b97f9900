/-
**The tasks of a callback target.**

Every call of a callback that finds a pointer makes one task and hands it over to the strand once;
the strand has no other tasks.  What becomes of a task is up to the strand: one that runs what it is
handed once runs the function of every call once.

Main definitions:

* `Hittop.CallbackTarget.Accounted` — the tasks between two steps;
* `Hittop.CallbackTarget.Spent` — the one-shot callbacks between two steps.

Main results:

* `Hittop.CallbackTarget.Spent.outcome` — a one-shot callback finds its pointer once at most;
* `Hittop.callback_hands_over` — every call hands over its task once.
-/

import Hittop.Concurrent.CallbackTarget
import Mathlib.Data.List.Nodup

set_option relaxedAutoImplicit false
set_option autoImplicit false

namespace Hittop

namespace CallbackTarget

variable {A R : Type} [DecidableEq A] {N : RefCounter R} {c c' : State A R} {a : Act A}
  {b : Callback} {x : Call A} {t : Task A}

/-! ### Every task is handed over once -/

/-- What the call hands over. -/
def Invocation.handover (v : Invocation A) : Handover A := ⟨v.scheduler, v.task⟩

/-- What a call has yet to hand over. -/
def Call.unpassed (x : Call A) : List (Handover A) :=
  match x.pc with
  | .entered => [⟨x.scheduler, x.task⟩]
  | .scheduled => []

omit [DecidableEq A] in
theorem Call.unpassed_entered (h : x.pc = .entered) : x.unpassed = [⟨x.scheduler, x.task⟩] := by
  rw [Call.unpassed, h]

omit [DecidableEq A] in
theorem Call.unpassed_scheduled (h : x.pc = .scheduled) : x.unpassed = [] := by
  rw [Call.unpassed, h]

/-- The tasks between two steps. -/
structure Accounted (c : State A R) : Prop where
  /-- What has been made is with calls or has been handed over. -/
  counted : ∀ v, (c.invoked.map Invocation.handover).count v =
    (c.calls.flatMap Call.unpassed).count v + c.passed.count v
  numbered : c.invoked.map (·.task.id) = List.range c.invoked.length
  /-- The strand has what it has been handed. -/
  tasks : ∀ t ∈ c.tasks, t ∈ c.passed.map Handover.task
  running : ∀ t ∈ c.running, t ∈ c.passed.map Handover.task
  begun : ∀ t ∈ c.begun, t ∈ c.passed.map Handover.task

omit [DecidableEq A] in
theorem mem_append_singleton {l : List (Task A)} {p : Task A → Prop} (hl : ∀ t ∈ l, p t)
    (ht : p t) : ∀ t' ∈ l ++ [t], p t' := by
  intro t' ht'
  rcases List.mem_append.1 ht' with ht' | ht'
  · exact hl t' ht'
  · exact List.mem_singleton.1 ht' ▸ ht

theorem mem_of_mem_replace_nil {l : List (Task A)} {p : Task A → Prop} (hl : ∀ t ∈ l, p t) :
    ∀ t' ∈ Pool.replace l t [], p t' :=
  fun t' ht' => hl t' ((Pool.mem_or_of_mem_replace ht').resolve_right List.not_mem_nil)

theorem Accounted.outcome (hc : Accounted c) (h : Outcome N c a c') : Accounted c' := by
  have hinvoke (v : Invocation A) (x : Call A) (hpc : x.pc = .entered)
      (hx : ⟨x.scheduler, x.task⟩ = v.handover) (w : Handover A) :
      ((c.invoked ++ [v]).map Invocation.handover).count w =
        ((c.calls ++ [x]).flatMap Call.unpassed).count w + c.passed.count w := by
    have hcount := hc.counted w
    rw [List.map_append, List.count_append, List.flatMap_append, List.count_append,
      List.flatMap_singleton, Call.unpassed_entered hpc, hx, List.map_singleton]
    omega
  have hnumber (v : Invocation A) (hv : v.task.id = c.invoked.length) :
      (c.invoked ++ [v]).map (·.task.id) = List.range (c.invoked ++ [v]).length := by
    rw [List.map_append, hc.numbered, List.length_append, List.length_singleton, List.range_succ,
      List.map_singleton, hv]
  cases h with
  | share | drop | make | copy | move | destroy | abort =>
      exact ⟨hc.counted, hc.numbered, hc.tasks, hc.running, hc.begun⟩
  | listen => exact ⟨hinvoke _ _ rfl rfl, hnumber _ rfl, hc.tasks, hc.running, hc.begun⟩
  | fire => exact ⟨hinvoke _ _ rfl rfl, hnumber _ rfl, hc.tasks, hc.running, hc.begun⟩
  | schedule x hx hpc =>
      have hold : ∀ t, t ∈ c.passed.map Handover.task →
          t ∈ (schedule c x).passed.map Handover.task := by
        intro t ht
        rw [schedule, List.map_append]
        exact List.mem_append_left _ ht
      refine ⟨fun v => ?_, hc.numbered, ?_, fun t ht => hold t (hc.running t ht),
        fun t ht => hold t (hc.begun t ht)⟩
      · have hcount := Pool.count_replace Call.unpassed [{ x with pc := .scheduled }] hx v
        rw [Call.unpassed_entered hpc, List.flatMap_singleton, Call.unpassed_scheduled rfl,
          List.count_nil] at hcount
        have hv := hc.counted v
        simp only [schedule, List.count_append]
        omega
      · refine mem_append_singleton (fun t ht => hold t (hc.tasks t ht)) ?_
        simp [schedule]
  | leave x hx hpc =>
      refine ⟨fun v => ?_, hc.numbered, hc.tasks, hc.running, hc.begun⟩
      have hcount := Pool.count_replace Call.unpassed [] hx v
      rw [Call.unpassed_scheduled hpc, List.flatMap_nil, List.count_nil] at hcount
      have hv := hc.counted v
      simp only [leave]
      omega
  | copyTask t ht =>
      exact ⟨hc.counted, hc.numbered,
        mem_append_singleton hc.tasks (ht.elim (hc.tasks t) (hc.running t)), hc.running, hc.begun⟩
  | destroyTask t ht =>
      exact ⟨hc.counted, hc.numbered, mem_of_mem_replace_nil hc.tasks, hc.running, hc.begun⟩
  | start t ht =>
      exact ⟨hc.counted, hc.numbered, mem_of_mem_replace_nil hc.tasks,
        mem_append_singleton hc.running (hc.tasks t ht),
        mem_append_singleton hc.begun (hc.tasks t ht)⟩
  | finish t ht =>
      exact ⟨hc.counted, hc.numbered, mem_append_singleton hc.tasks (hc.running t ht),
        mem_of_mem_replace_nil hc.running, hc.begun⟩

theorem init_accounted : Accounted (.init N : State A R) where
  counted v := rfl
  numbered := rfl
  tasks t ht := by cases ht
  running t ht := by cases ht
  begun t ht := by cases ht

/-- The tasks that have been made are different. -/
theorem Accounted.nodup_invoked (hc : Accounted c) : (c.invoked.map (·.task)).Nodup := by
  refine List.Nodup.of_map (fun t : Task A => t.id) ?_
  rw [List.map_map]
  exact hc.numbered ▸ List.nodup_range

/-- Every task has been handed over, or is with the call that made it. -/
theorem Accounted.perm (hc : Accounted c) :
    (c.passed ++ c.calls.flatMap Call.unpassed).Perm (c.invoked.map Invocation.handover) := by
  rw [List.perm_iff_count]
  intro v
  rw [List.count_append, hc.counted v, Nat.add_comm]

/-- A strand that has run what it has been handed once has run the tasks of the calls once. -/
theorem Accounted.perm_begun (hc : Accounted c) (hcalls : c.calls = [])
    (h : c.begun.Perm (c.passed.map Handover.task)) : c.begun.Perm (c.invoked.map (·.task)) := by
  have hperm := hc.perm.map Handover.task
  rw [hcalls, List.flatMap_nil, List.append_nil, List.map_map] at hperm
  exact h.trans hperm

/-! ### One-shot callbacks -/

/-- The one-shot callbacks among those that have been called. -/
def oneShots (calls : List (Invocation A)) : List ℕ :=
  (calls.filter fun v => decide (v.retention = .transferred)).map (·.callback)

def State.fired (c : State A R) : List ℕ := oneShots c.invoked

omit [DecidableEq A] in
theorem oneShots_retained (calls : List (Invocation A)) (name : ℕ) (scheduler : Scheduler)
    (task : Task A) :
    oneShots (calls ++ [⟨name, .retained, scheduler, task⟩]) = oneShots calls := by
  simp [oneShots, List.filter_append]

omit [DecidableEq A] in
theorem oneShots_transferred (calls : List (Invocation A)) (name : ℕ) (scheduler : Scheduler)
    (task : Task A) :
    oneShots (calls ++ [⟨name, .transferred, scheduler, task⟩]) = oneShots calls ++ [name] := by
  simp [oneShots, List.filter_append]

/-- The one-shot callbacks between two steps. -/
structure Spent (c : State A R) : Prop where
  named : ∀ b ∈ c.callbacks, b.name < c.made
  distinct : (c.callbacks.map (·.name)).Nodup
  called : ∀ n ∈ c.fired, n < c.made
  /-- A callback that has been called has lost its pointer. -/
  lost : ∀ b ∈ c.callbacks, b.name ∈ c.fired → b.obj = false
  once : c.fired.Nodup

omit [DecidableEq A] in
/-- A new callback. -/
theorem Spent.add (hc : Spent c) {callbacks : List Callback} (hb : b.name = c.made)
    (hcallbacks : callbacks = c.callbacks ++ [b]) {target : R} :
    Spent { c with target, callbacks, made := c.made + 1 } := by
  subst hcallbacks
  refine ⟨fun b' hb' => ?_, ?_, fun n hn => Nat.lt_succ_of_lt (hc.called n hn),
    fun b' hb' hfired => ?_, hc.once⟩
  · rcases List.mem_append.1 hb' with hb' | hb'
    · exact Nat.lt_succ_of_lt (hc.named b' hb')
    · rw [List.mem_singleton.1 hb', hb]
      exact Nat.lt_succ_self _
  · rw [List.map_append, List.map_singleton, List.nodup_append]
    refine ⟨hc.distinct, List.nodup_singleton _, fun n hn m hm => ?_⟩
    obtain ⟨b', hb', rfl⟩ := List.mem_map.1 hn
    rw [List.mem_singleton.1 hm, hb]
    exact Nat.ne_of_lt (hc.named b' hb')
  · rcases List.mem_append.1 hb' with hb' | hb'
    · exact hc.lost b' hb' hfired
    · rw [List.mem_singleton.1 hb', hb] at hfired
      exact absurd (hc.called _ hfired) (Nat.lt_irrefl _)

omit [DecidableEq A] in
/-- A callback loses its pointer, to a new callback or to a call. -/
theorem Spent.lose (hc : Spent c) (hb : b ∈ c.callbacks) :
    Spent { c with callbacks := Pool.replace c.callbacks b [{ b with obj := false }] } := by
  -- the names of the callbacks are the same as before, in another order
  have hnames : ((Pool.replace c.callbacks b [{ b with obj := false }]).map (·.name)).Perm
      (c.callbacks.map (·.name)) := by
    have hperm := (List.perm_cons_erase hb).map (·.name)
    rw [Pool.replace, List.map_append]
    exact (List.perm_append_singleton _ _).trans hperm.symm
  refine ⟨fun b' hb' => ?_, hnames.nodup_iff.2 hc.distinct, hc.called, fun b' hb' hfired => ?_,
    hc.once⟩
  · obtain ⟨b₀, hb₀, hname⟩ := List.mem_map.1 (hnames.mem_iff.1 (List.mem_map_of_mem hb'))
    exact hname ▸ hc.named b₀ hb₀
  · rcases Pool.mem_or_of_mem_replace hb' with hb' | hb'
    · exact hc.lost b' hb' hfired
    · rw [List.mem_singleton.1 hb']

omit [DecidableEq A] in
theorem Spent.unique {b' : Callback} (hc : Spent c) (hb : b ∈ c.callbacks)
    (hb' : b' ∈ c.callbacks) (hname : b'.name = b.name) : b' = b :=
  List.inj_on_of_nodup_map hc.distinct hb' hb hname

omit [DecidableEq A] in
/-- A one-shot callback that has lost its pointer is called no more. -/
theorem Spent.fire (hc : Spent c) (hb : b ∈ c.callbacks) (hobj : b.obj = false)
    (hfresh : b.name ∉ c.fired) {calls : List (Call A)} {invoked : List (Invocation A)}
    (hinvoked : oneShots invoked = c.fired ++ [b.name]) {target : R} :
    Spent { c with target, calls, invoked } := by
  refine ⟨hc.named, hc.distinct, ?_, ?_, ?_⟩ <;> simp only [State.fired, hinvoked]
  · intro n hn
    rcases List.mem_append.1 hn with hn | hn
    · exact hc.called n hn
    · exact List.mem_singleton.1 hn ▸ hc.named b hb
  · intro b' hb' hfired
    rcases List.mem_append.1 hfired with hfired | hfired
    · exact hc.lost b' hb' hfired
    · rw [hc.unique hb hb' (List.mem_singleton.1 hfired), hobj]
  · rw [List.nodup_append]
    refine ⟨hc.once, List.nodup_singleton _, fun n hn m hm => ?_⟩
    rw [List.mem_singleton.1 hm]
    rintro rfl
    exact hfresh hn

theorem Spent.outcome (hc : Spent c) (h : Outcome N c a c') : Spent c' := by
  cases h with
  | make => exact hc.add rfl rfl
  | copy => exact hc.add rfl rfl
  | move b hb => exact (hc.lose hb).add rfl rfl
  | destroy b hb =>
      have hmem : ∀ b' ∈ Pool.replace c.callbacks b [], b' ∈ c.callbacks :=
        fun b' hb' => (Pool.mem_or_of_mem_replace hb').resolve_right List.not_mem_nil
      refine ⟨fun b' hb' => hc.named b' (hmem b' hb'), ?_, hc.called,
        fun b' hb' => hc.lost b' (hmem b' hb'), hc.once⟩
      simp only [Pool.replace, List.append_nil]
      exact hc.distinct.sublist (List.erase_sublist.map _)
  | listen =>
      refine ⟨hc.named, hc.distinct, ?_, ?_, ?_⟩ <;> rw [State.fired, oneShots_retained]
      · exact hc.called
      · exact hc.lost
      · exact hc.once
  | fire b hb hobj htransferred args =>
      have hfresh : b.name ∉ c.fired := by
        intro hfired
        rw [hc.lost b hb hfired] at hobj
        cases hobj
      refine (hc.lose hb).fire (b := { b with obj := false })
        (Pool.mem_replace_of_mem_right List.mem_cons_self) rfl hfresh ?_
      exact oneShots_transferred _ _ _ _
  | _ => exact ⟨hc.named, hc.distinct, hc.called, hc.lost, hc.once⟩

omit [DecidableEq A] in
theorem init_spent : Spent (.init N : State A R) where
  named b hb := by cases hb
  distinct := List.nodup_nil
  called n hn := by cases hn
  lost b hb := by cases hb
  once := List.nodup_nil

/-- A second call of a one-shot callback is stopped by its assertion. -/
theorem Spent.step_invoke (hc : Spent c) (haborted : c.aborted = false) (hb : b ∈ c.callbacks)
    (hfired : b.name ∈ c.fired) (args : A) :
    step N c (.invoke b args) = some { c with aborted := true } := by
  simp [step, haborted, hb, invoke, hc.lost b hb hfired]

end CallbackTarget

/-- **Every call of a callback hands over its task once**: the calls that have found a pointer have
made different tasks; each of these has been handed to the strand once, by the scheduler of its
callback, or its call is about to do so; and the strand has run nothing else.  Where no call is
under way and the strand has run what it has been handed once, it has run the task of every call
once.  A one-shot callback finds its pointer once, and every later call of it fails its
assertion. -/
theorem callback_hands_over {A R : Type} [DecidableEq A] (N : RefCounter R)
    (c : CallbackTarget.State A R)
    (h : Run.Reachable (CallbackTarget.step N) (.init N) c) :
    (c.invoked.map (·.task)).Nodup ∧
      (c.passed ++ c.calls.flatMap CallbackTarget.Call.unpassed).Perm
        (c.invoked.map CallbackTarget.Invocation.handover) ∧
      (∀ t ∈ c.begun, t ∈ c.passed.map CallbackTarget.Handover.task) ∧
      (c.calls = [] → c.begun.Perm (c.passed.map CallbackTarget.Handover.task) →
        c.begun.Perm (c.invoked.map (·.task))) ∧
      (CallbackTarget.oneShots c.invoked).Nodup ∧
      (c.aborted = false → ∀ b ∈ c.callbacks, b.name ∈ CallbackTarget.oneShots c.invoked →
        ∀ args, CallbackTarget.step N c (.invoke b args) = some { c with aborted := true }) := by
  have hc : CallbackTarget.Accounted c :=
    h.invariant (fun _ _ _ hc h => hc.outcome (CallbackTarget.step_outcome h))
      CallbackTarget.init_accounted
  have hspent : CallbackTarget.Spent c :=
    h.invariant (fun _ _ _ hc h => hc.outcome (CallbackTarget.step_outcome h))
      CallbackTarget.init_spent
  exact ⟨hc.nodup_invoked, hc.perm, hc.begun, hc.perm_begun, hspent.once,
    fun haborted b hb hfired => hspent.step_invoke haborted hb hfired⟩

/-- A one-shot callback is moved and then called, and the strand runs its task after the call. -/
theorem callback_hands_over_moved : ∃ c : CallbackTarget.State ℕ (ℕ × ℕ),
    Run.run (CallbackTarget.step .plain) (.init .plain) [.make .transferred .post 7,
      .move ⟨0, .transferred, .post, true, 7⟩, .invoke ⟨1, .transferred, .post, true, 7⟩ 5,
      .schedule ⟨⟨0, 7, 5⟩, 1, .transferred, .post, .entered⟩,
      .leave ⟨⟨0, 7, 5⟩, 1, .transferred, .post, .scheduled⟩, .start ⟨0, 7, 5⟩,
      .finish ⟨0, 7, 5⟩, .destroyTask ⟨0, 7, 5⟩] = some c ∧
    c.begun = [⟨0, 7, 5⟩] ∧ c.begun.Perm (c.invoked.map (·.task)) ∧
    ∀ args, CallbackTarget.step .plain c (.invoke ⟨1, .transferred, .post, false, 7⟩ args) =
      some { c with aborted := true } := by
  have hrun (c : CallbackTarget.State ℕ (ℕ × ℕ)) (h : Run.run (CallbackTarget.step .plain)
      (.init .plain) [.make .transferred .post 7,
      .move ⟨0, .transferred, .post, true, 7⟩, .invoke ⟨1, .transferred, .post, true, 7⟩ 5,
      .schedule ⟨⟨0, 7, 5⟩, 1, .transferred, .post, .entered⟩,
      .leave ⟨⟨0, 7, 5⟩, 1, .transferred, .post, .scheduled⟩, .start ⟨0, 7, 5⟩,
      .finish ⟨0, 7, 5⟩, .destroyTask ⟨0, 7, 5⟩] = some c) :=
    callback_hands_over .plain c ⟨_, h⟩
  refine ⟨_, rfl, by decide, (hrun _ rfl).2.2.2.1 (by decide) (by decide), ?_⟩
  exact (hrun _ rfl).2.2.2.2.2 (by decide) _ (by decide) (by decide)

end Hittop
