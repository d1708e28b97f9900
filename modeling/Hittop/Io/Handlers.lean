/-
**Every handler runs once.**

A handler that has been passed to a stream is stored, or it is in an action that has yet to invoke
it, or it has been invoked; no step loses it and no step copies it.  When both sides are closed
nothing is stored any more.

Main definitions:

* `Hittop.AsyncCircularBufferStream.stored` — the handlers that wait;
* `Hittop.AsyncCircularBufferStream.Moves` — what an operation does to the handlers and to the flags
  of a closed side.

Main results:

* `Hittop.Session.step_moves`, `Hittop.Session.calls_perm` — the handlers passed are those stored
  and those in actions;
* `Hittop.handlers_run_once` — no handler is invoked twice, and none is left after the destructor.
-/

import Hittop.Io.Session

set_option relaxedAutoImplicit false
set_option autoImplicit false

namespace Hittop

namespace AsyncCircularBufferStream

variable {k : ℕ} {H : Type} {s s' : AsyncCircularBufferStream k H} {n m : SizeT} {h : H}
  {cs : List (Completion H)} {ws rs : List (List Buffer)}

/-! ### The handlers of a stream -/

/-- The handlers that wait. -/
def stored (s : AsyncCircularBufferStream k H) : List H :=
  s.fetchHandler.toList ++ s.prepareHandler.toList

/-- An operation that is passed the handlers `hs` and returns the action `cs`: it stores or invokes
the handlers that were stored or passed, and a side that is closed stays closed. -/
structure Moves (s s' : AsyncCircularBufferStream k H) (hs : List H) (cs : List (Completion H)) :
    Prop where
  handlers : (s'.stored ++ cs.map Completion.handler).Perm (s.stored ++ hs)
  closedForRead : s.closedForRead = true → s'.closedForRead = true
  closedForWrite : s.closedForWrite = true → s'.closedForWrite = true

theorem moves_asyncPrepare (hs : s.Sound ws rs) (hstep : s.asyncPrepare m h = (s', cs)) :
    s.Moves s' [h] cs := by
  rcases asyncPrepare_cases hstep with ⟨e, rfl, rfl⟩ | ⟨-, -, -, hp, -, rfl, rfl⟩ |
    ⟨-, -, -, -, rfl, rfl⟩
  · exact ⟨.refl _, id, id⟩
  · obtain ⟨hnone, -⟩ := hs.no_writer hp
    refine ⟨?_, id, id⟩
    simp [stored, hnone]
  · exact ⟨.refl _, id, id⟩

theorem moves_asyncFetch (hs : s.Sound ws rs) (hstep : s.asyncFetch m h = (s', cs)) :
    s.Moves s' [h] cs := by
  rcases asyncFetch_cases hstep with ⟨e, rfl, rfl, -⟩ | ⟨-, -, -, hp, -, rfl, rfl⟩ |
    ⟨-, -, -, rfl, rfl⟩
  · exact ⟨.refl _, id, id⟩
  · obtain ⟨hnone, -⟩ := hs.no_reader hp
    refine ⟨?_, id, id⟩
    rw [stored, stored, hnone]
    simpa using (List.perm_append_singleton h s.prepareHandler.toList).symm
  · exact ⟨.refl _, id, id⟩

theorem moves_commit (hstep : s.commit n = some (s', cs)) : s.Moves s' [] cs := by
  obtain ⟨-, b, -, ⟨h, hf, -, rfl, rfl⟩ | ⟨-, rfl, rfl⟩⟩ := commit_cases hstep
  · refine ⟨?_, id, id⟩
    simp [stored, hf, Completion.handler]
  · exact ⟨.refl _, id, id⟩

theorem moves_consume (hstep : s.consume n = some (s', cs)) : s.Moves s' [] cs := by
  obtain ⟨-, b, -, ⟨h, hp, -, rfl, rfl⟩ | ⟨-, rfl, rfl⟩⟩ := consume_cases hstep
  · refine ⟨?_, id, id⟩
    simp [stored, hp, Completion.handler]
  · exact ⟨.refl _, id, id⟩

theorem moves_closeForWrite (hstep : s.closeForWrite = (s', cs)) : s.Moves s' [] cs := by
  cases hw : s.closedForWrite with
  | true =>
      rw [closeForWrite_of_closed hw] at hstep
      cases hstep
      exact ⟨.refl _, id, id⟩
  | false =>
      rw [closeForWrite_of_open hw] at hstep
      cases hstep
      refine ⟨?_, id, fun _ => rfl⟩
      simpa [stored, Function.comp_def, Completion.handler] using List.perm_append_comm

theorem moves_closeForRead (hstep : s.closeForRead = (s', cs)) : s.Moves s' [] cs := by
  cases hr : s.closedForRead with
  | true =>
      rw [closeForRead_of_closed hr] at hstep
      cases hstep
      exact ⟨.refl _, id, id⟩
  | false =>
      rw [closeForRead_of_open hr] at hstep
      cases hstep
      refine ⟨?_, fun _ => rfl, id⟩
      simp [stored, Function.comp_def, Completion.handler]

/-- After a side has been closed nothing waits. -/
theorem Sound.stored_eq_nil (hs : s.Sound ws rs)
    (hclosed : s.closedForRead = true ∨ s.closedForWrite = true) : s.stored = [] := by
  have hfetch : s.fetchHandler = none := by
    cases hf : s.fetchHandler with
    | none => rfl
    | some h =>
        obtain ⟨hr, hw, -⟩ := hs.fetchWaits h hf
        simp [hr, hw] at hclosed
  have hprepare : s.prepareHandler = none := by
    cases hp : s.prepareHandler with
    | none => rfl
    | some h =>
        obtain ⟨hr, hw, -⟩ := hs.prepareWaits h hp
        simp [hr, hw] at hclosed
  simp [stored, hfetch, hprepare]

end AsyncCircularBufferStream

namespace Session

open AsyncCircularBufferStream

variable {k : ℕ} {c c' : Session k} {a : Act}

/-! ### The handlers of a session -/

/-- A step passes at most one handler, which is new, and hands over what the stream returns. -/
theorem step_moves (hs : c.stream.Sound c.writeGranted c.readGranted) (h : c.step a = some c') :
    ∃ hs cs, c.stream.Moves c'.stream hs cs ∧ c'.calls = c.calls ++ hs ∧
      (hs = [] ∨ ∃ m, hs = [⟨c.calls.length, m⟩]) ∧ c'.decided = c.decided ++ cs ∧
      (c'.pending ++ c'.invoked).Perm (c.pending ++ c.invoked ++ cs) := by
  -- what is decided is pending first
  have happend : ∀ cs : List (Completion StreamCall),
      (c.pending ++ cs ++ c.invoked).Perm (c.pending ++ c.invoked ++ cs) := by
    intro cs
    rw [List.append_assoc, List.append_assoc]
    exact List.perm_append_comm.append_left _
  cases a with
  | asyncPrepare m =>
      cases h
      exact ⟨_, _, moves_asyncPrepare hs rfl, rfl, .inr ⟨m, rfl⟩, rfl, happend _⟩
  | asyncFetch m =>
      cases h
      exact ⟨_, _, moves_asyncFetch hs rfl, rfl, .inr ⟨m, rfl⟩, rfl, happend _⟩
  | closeForWrite =>
      cases h
      exact ⟨_, _, moves_closeForWrite rfl, (List.append_nil _).symm, .inl rfl, rfl, happend _⟩
  | closeForRead =>
      cases h
      exact ⟨_, _, moves_closeForRead rfl, (List.append_nil _).symm, .inl rfl, rfl, happend _⟩
  | commit g n =>
      obtain ⟨-, ⟨s, cs⟩, hcommit, rfl⟩ := step_commit h
      exact ⟨_, _, moves_commit hcommit, (List.append_nil _).symm, .inl rfl, rfl, happend _⟩
  | consume g n =>
      obtain ⟨-, ⟨s, cs⟩, hconsume, rfl⟩ := step_consume h
      exact ⟨_, _, moves_consume hconsume, (List.append_nil _).symm, .inl rfl, rfl, happend _⟩
  | invoke x =>
      obtain ⟨hx, rfl⟩ := step_invoke h
      refine ⟨[], [], ⟨.refl _, id, id⟩, (List.append_nil _).symm, .inl rfl,
        (List.append_nil _).symm, ?_⟩
      rw [List.append_nil]
      refine List.Perm.trans ?_ ((List.perm_cons_erase hx).symm.append_right _)
      rw [List.cons_append, ← List.append_assoc]
      exact List.perm_append_singleton _ _
  | store g xs vs =>
      obtain ⟨-, rfl⟩ := step_store h
      exact ⟨[], [], ⟨.refl _, id, id⟩, (List.append_nil _).symm, .inl rfl,
        (List.append_nil _).symm, by rw [List.append_nil]⟩

/-- The calls, their handlers and what has been decided. -/
structure Accounted (c : Session k) : Prop where
  ids : c.calls.map StreamCall.id = List.range c.calls.length
  calls : c.calls.Perm (c.stream.stored ++ c.decided.map Completion.handler)
  decided : c.decided.Perm (c.pending ++ c.invoked)

theorem step_accounted (hs : c.stream.Sound c.writeGranted c.readGranted) (hc : c.Accounted)
    (h : c.step a = some c') : c'.Accounted := by
  obtain ⟨hs, cs, hmoves, hcalls, hnew, hdecided, hpending⟩ := step_moves hs h
  constructor
  · rw [hcalls, List.map_append, hc.ids, List.length_append]
    rcases hnew with rfl | ⟨m, rfl⟩
    · simp
    · rw [List.length_singleton, List.range_succ]
      rfl
  · refine List.perm_iff_count.2 fun r => ?_
    have hmove := hmoves.handlers.count_eq r
    have hold := hc.calls.count_eq r
    rw [hcalls, hdecided, List.map_append]
    simp only [List.count_append] at hmove hold ⊢
    omega
  · rw [hdecided]
    exact (hc.decided.append_right cs).trans hpending.symm

theorem accounted {hk : k ≤ 30} {f p : SizeT} (h : Run.Reachable step (init hk f p) c) :
    c.stream.Sound c.writeGranted c.readGranted ∧ c.Accounted := by
  refine h.invariant (I := fun c => c.stream.Sound c.writeGranted c.readGranted ∧ c.Accounted)
    ?_ ⟨init_sound hk f p, ⟨rfl, .refl _, .refl _⟩⟩
  rintro c a c' ⟨hs, hc⟩ h
  exact ⟨step_sound c a c' hs h, step_accounted hs hc h⟩

namespace Accounted

/-- The handlers of different calls are different. -/
theorem nodup (hc : c.Accounted) : c.calls.Nodup := by
  refine List.Nodup.of_map StreamCall.id ?_
  rw [hc.ids]
  exact List.nodup_range

/-- The handlers passed are those that are stored, those that an action has yet to invoke, and those
that have been invoked. -/
theorem calls_perm (hc : c.Accounted) :
    c.calls.Perm (c.stream.stored ++ c.pending.map Completion.handler ++
      c.invoked.map Completion.handler) := by
  rw [List.append_assoc, ← List.map_append]
  exact hc.calls.trans ((hc.decided.map _).append_left _)

theorem nodup_invoked (hc : c.Accounted) : (c.invoked.map Completion.handler).Nodup :=
  (List.nodup_append.1 (hc.calls_perm.nodup_iff.1 hc.nodup)).2.1

/-- Where nothing is stored and nothing is left to be invoked, every handler has been invoked. -/
theorem count_invoked (hc : c.Accounted) (hstored : c.stream.stored = [])
    (hpending : c.pending = [])
    {r : StreamCall} (hr : r ∈ c.calls) : (c.invoked.map Completion.handler).count r = 1 := by
  have hperm := hc.calls_perm
  rw [hstored, hpending] at hperm
  exact List.count_eq_one_of_mem hc.nodup_invoked (hperm.mem_iff.1 hr)

end Accounted

/-! ### Closing -/

theorem step_closed (hs : c.stream.Sound c.writeGranted c.readGranted) (h : c.step a = some c') :
    (c.stream.closedForRead = true → c'.stream.closedForRead = true) ∧
      (c.stream.closedForWrite = true → c'.stream.closedForWrite = true) := by
  obtain ⟨hs, cs, hmoves, -⟩ := step_moves hs h
  exact ⟨hmoves.closedForRead, hmoves.closedForWrite⟩

/-- A side that is closed stays closed. -/
theorem closedForRead_of_reachable (hs : c.stream.Sound c.writeGranted c.readGranted)
    (h : Run.Reachable step c c') (hr : c.stream.closedForRead = true) :
    c'.stream.closedForRead = true := by
  refine (h.invariant (I := fun c' => c'.stream.Sound c'.writeGranted c'.readGranted ∧
    c'.stream.closedForRead = true) ?_ ⟨hs, hr⟩).2
  rintro c₁ a c₂ ⟨hs, hr⟩ h
  exact ⟨step_sound c₁ a c₂ hs h, (step_closed hs h).1 hr⟩

theorem closedForRead_closeForRead (h : c.step .closeForRead = some c') :
    c'.stream.closedForRead = true := by
  cases h
  cases hr : c.stream.closedForRead with
  | true =>
      simp only [call, closeForRead_of_closed hr]
      exact hr
  | false => simp only [call, closeForRead_of_open hr]

/-- The actions can always be run to their ends. -/
theorem exists_run_pending (c : Session k) :
    ∃ (xs : List (Completion StreamCall)) (c' : Session k),
      Run.run step c (xs.map .invoke) = some c' ∧ c'.pending = [] := by
  generalize hl : c.pending = l
  induction l generalizing c with
  | nil => exact ⟨[], c, rfl, hl⟩
  | cons x l ih =>
      have hx : x ∈ c.pending := by simp [hl]
      obtain ⟨c₁, hc₁, hpending⟩ : ∃ c₁, c.step (.invoke x) = some c₁ ∧ c₁.pending = l := by
        rw [step, if_pos hx]
        exact ⟨_, rfl, by simp [hl]⟩
      obtain ⟨xs, c', hrun, hc'⟩ := ih c₁ hpending
      exact ⟨x :: xs, c', by rw [List.map_cons, Run.run_cons_of_step hc₁, hrun], hc'⟩

end Session

open Session

/-- No handler is invoked twice; when the destructor has closed the stream for reading and for
writing, with any steps in between, and the actions have been run to their ends, every handler that
has been passed has been invoked once; and the actions can be run to their ends from every state. -/
theorem handlers_run_once {k : ℕ} (hk : k ≤ 30) (f p : SizeT) (c : Session k)
    (h : Run.Reachable step (init hk f p) c) :
    (c.invoked.map Completion.handler).Nodup ∧
    (∀ c₁ c₂ c₃ c₄, c.step .closeForRead = some c₁ → Run.Reachable step c₁ c₂ →
      c₂.step .closeForWrite = some c₃ → Run.Reachable step c₃ c₄ → c₄.pending = [] →
      ∀ r ∈ c₄.calls, (c₄.invoked.map Completion.handler).count r = 1) ∧
    ∃ (xs : List (Completion StreamCall)) (c' : Session k),
      Run.run step c (xs.map .invoke) = some c' ∧ c'.pending = [] := by
  refine ⟨(accounted h).2.nodup_invoked, ?_, c.exists_run_pending⟩
  intro c₁ c₂ c₃ c₄ h₁ h₂ h₃ h₄ hpending r hr
  have hreach₁ := h.tail h₁
  have hafter : Run.Reachable step c₁ c₄ := (h₂.tail h₃).trans h₄
  obtain ⟨hs₄, hc₄⟩ := accounted (hreach₁.trans hafter)
  have hclosed := closedForRead_of_reachable (sound hreach₁) hafter (closedForRead_closeForRead h₁)
  exact hc₄.count_invoked (hs₄.stored_eq_nil (.inl hclosed)) hpending hr

/-- A fetch that waits when the stream is destroyed. -/
theorem handlers_run_once_waiting :
    ∃ c₄ : Session 0, Run.run step (init (by decide) 0 0)
      [.asyncFetch 1, .closeForRead, .closeForWrite,
        .invoke (.fetch ⟨0, 1⟩ (.failure .shutDown))] = some c₄ ∧
      (c₄.invoked.map Completion.handler).count ⟨0, 1⟩ = 1 := by
  refine ⟨_, rfl, ?_⟩
  exact (handlers_run_once (by decide) 0 0 _ ⟨[.asyncFetch 1], rfl⟩).2.1 _ _ _ _ rfl .refl rfl
    ⟨[.invoke (.fetch ⟨0, 1⟩ (.failure .shutDown))], rfl⟩ rfl ⟨0, 1⟩ (by decide)

end Hittop
