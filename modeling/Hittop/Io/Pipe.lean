/-
**The stream is a pipe.**

The writer stores bytes in its view of the storage and commits some of the first of them; the reader
finds them in its own view and consumes some of the first.  Nothing is copied, and yet the bytes
consumed and those that are buffered are the bytes committed, whatever the two do and in whatever
order.

Main results:

* `Hittop.Session.step_pipe` — every step that commits and consumes no more than is granted keeps
  the bytes in order;
* `Hittop.Session.step_view` — no step changes what the reader sees;
* `Hittop.Session.commit_isSome`, `Hittop.Session.consume_isSome` — the assertions of the stream
  hold where a party keeps to its view;
* `Hittop.stream_is_pipe` — the pipe, over every run.
-/

import Hittop.Io.Session

set_option relaxedAutoImplicit false
set_option autoImplicit false

namespace Hittop.Session

open AsyncCircularBufferStream

variable {k : ℕ} {c c' : Session k} {g r : List Buffer} {n : SizeT}

/-! ### Bytes in a view -/

theorem take_read_writeGrant (hs : c.stream.Sound c.writeGranted c.readGranted)
    (hg : g ∈ c.writeGrants) (hn : n.toNat ≤ bufferSize g) :
    (c.stream.buffer.read g).take n.toNat =
      (c.stream.buffer.read c.stream.buffer.prepare).take n.toNat := by
  have hcells := hs.room_subset (List.mem_append_right _ hg)
  rw [CircularBuffer.read, hcells, ← Ring.readAt_take, List.take_take, Nat.min_eq_left hn]
  rfl

theorem take_read_readGrant (hs : c.stream.Sound c.writeGranted c.readGranted)
    (hg : g ∈ c.readGrants) (hn : n.toNat ≤ bufferSize g) :
    (c.stream.buffer.read g).take n.toNat = c.stream.buffer.contents.take n.toNat := by
  have hcells := hs.bytes_subset (List.mem_append_right _ hg)
  rw [CircularBuffer.read, hcells, ← Ring.readAt_take, List.take_take, Nat.min_eq_left hn]
  rfl

/-! ### What a step does to the bytes -/

/-- The reader sees the same bytes after every step. -/
theorem step_view {a : Act} (hs : c.stream.Sound c.writeGranted c.readGranted)
    (hr : r ∈ c.readGranted) (h : c.step a = some c') :
    c'.stream.buffer.read r = c.stream.buffer.read r := by
  rcases step_cases h with ⟨cs, -, -, -, hstorage, -⟩ | ⟨x, -, -, rfl⟩ |
    ⟨g, hg, xs, vs, -, hxs, rfl⟩
  · rw [CircularBuffer.read, hstorage]
    rfl
  · rfl
  · have hdisj := hs.disjoint (List.mem_append_right _ hg) hr
    exact Ring.readAt_writeAt_of_disjoint fun p hp => hdisj (hxs p hp)

/-- The reader keeps its view until it consumes it. -/
theorem step_readGranted {a : Act} (hr : r ∈ c.readGranted) (hne : ∀ n, a ≠ .consume r n)
    (h : c.step a = some c') : r ∈ c'.readGranted := by
  unfold readGranted at hr ⊢
  rcases step_cases h with ⟨cs, -, hpending, -, -, hgrants⟩ | ⟨x, hx, -, rfl⟩ |
    ⟨g, -, xs, vs, -, -, rfl⟩
  · rw [hpending, List.filterMap_append]
    rcases List.mem_append.1 hr with hr | hr
    · exact List.mem_append_left _ (List.mem_append_left _ hr)
    · refine List.mem_append_right _ ?_
      rcases hgrants with hgrants | ⟨g, n, rfl, hgrants⟩
      · rw [hgrants]
        exact hr
      · have hgr : r ≠ g := by
          rintro rfl
          exact hne n rfl
        rw [hgrants]
        exact (List.mem_erase_of_ne hgr).2 hr
  · -- the view goes from the action to the party
    rcases List.mem_append.1 hr with hr | hr
    · obtain ⟨y, hy, hyr⟩ := List.mem_filterMap.1 hr
      rcases eq_or_ne y x with rfl | hyx
      · exact List.mem_append_right _ (List.mem_append_right _ (by simp [hyr]))
      · refine List.mem_append_left _ (List.mem_filterMap.2 ⟨y, ?_, hyr⟩)
        exact (List.mem_erase_of_ne hyx).2 hy
    · exact List.mem_append_right _ (List.mem_append_left _ hr)
  · exact hr

/-- The bytes are in order after every step that keeps within the views. -/
theorem step_pipe {a : Act} (hs : c.stream.Sound c.writeGranted c.readGranted)
    (hpipe : c.consumed ++ c.stream.buffer.contents = c.committed) (ha : a.WithinGrant)
    (h : c.step a = some c') : c'.consumed ++ c'.stream.buffer.contents = c'.committed := by
  cases a with
  | asyncPrepare m =>
      cases h
      exact (congrArg (fun b : CircularBuffer k => c.consumed ++ b.contents)
        (asyncPrepare_buffer rfl)).trans hpipe
  | asyncFetch m =>
      cases h
      exact (congrArg (fun b : CircularBuffer k => c.consumed ++ b.contents)
        (asyncFetch_buffer rfl)).trans hpipe
  | closeForWrite =>
      cases h
      exact (congrArg (fun b : CircularBuffer k => c.consumed ++ b.contents)
        closeForWrite_buffer).trans hpipe
  | closeForRead =>
      cases h
      exact (congrArg (fun b : CircularBuffer k => c.consumed ++ b.contents)
        closeForRead_buffer).trans hpipe
  | commit g n =>
      obtain ⟨hg, ⟨s, cs⟩, hcommit, rfl⟩ := step_commit h
      have hcontents := CircularBuffer.contents_commit (commit_buffer hcommit)
      -- what is committed was stored in the room behind the contents
      have hbytes := take_read_writeGrant hs hg ha
      simp only [call]
      rw [hcontents, hbytes, ← List.append_assoc, hpipe]
  | consume g n =>
      obtain ⟨hg, ⟨s, cs⟩, hconsume, rfl⟩ := step_consume h
      have hcontents := CircularBuffer.contents_consume (consume_buffer hconsume)
      have hbytes := take_read_readGrant hs hg ha
      simp only [call]
      rw [hcontents, hbytes, List.append_assoc, List.take_append_drop, hpipe]
  | invoke x =>
      obtain ⟨-, rfl⟩ := step_invoke h
      exact hpipe
  | store g xs vs =>
      obtain ⟨hg, rfl⟩ := step_store h
      -- a view of the room has no cell in common with the contents
      have hdisj : List.Disjoint (cells xs) (cells c.stream.buffer.data) := by
        intro p hp
        have hprepare := hg.2 p hp
        rw [hs.room_subset (List.mem_append_right _ hg.1)] at hprepare
        exact c.stream.buffer.disjoint_prepare_data (List.mem_of_mem_take hprepare)
      exact (congrArg _ (CircularBuffer.contents_write hdisj)).trans hpipe

/-! ### The assertions -/

/-- The assertions of `commit` hold for a writer that keeps within its view. -/
theorem commit_isSome (hs : c.stream.Sound c.writeGranted c.readGranted) (hg : g ∈ c.writeGrants)
    (hn : n.toNat ≤ bufferSize g) : (c.step (.commit g n)).isSome := by
  obtain ⟨m, hm, hcells⟩ := hs.room g (List.mem_append_right _ hg)
  have hsize : bufferSize g = m := by rw [← length_cells, hcells, Ring.window_length]
  have hspace : n ≤ c.stream.buffer.space := BitVec.le_def.2 (by omega)
  have hflag : c.stream.writeInProgress = true := by
    by_contra hw
    have hnone := (hs.no_writer (Bool.eq_false_iff.2 hw)).2
    rw [hnone] at hs
    exact List.ne_nil_of_mem (List.mem_append_right _ hg) hnone
  rw [step, if_pos hg, AsyncCircularBufferStream.commit, if_pos hflag, CircularBuffer.commit,
    dif_pos hspace]
  rfl

theorem consume_isSome (hs : c.stream.Sound c.writeGranted c.readGranted) (hg : g ∈ c.readGrants)
    (hn : n.toNat ≤ bufferSize g) : (c.step (.consume g n)).isSome := by
  obtain ⟨m, hm, hcells⟩ := hs.bytes g (List.mem_append_right _ hg)
  have hsize : bufferSize g = m := by rw [← length_cells, hcells, Ring.window_length]
  have hle : n ≤ c.stream.buffer.size := BitVec.le_def.2 (by omega)
  have hflag : c.stream.readInProgress = true := by
    by_contra hr
    have hnone := (hs.no_reader (Bool.eq_false_iff.2 hr)).2
    exact List.ne_nil_of_mem (List.mem_append_right _ hg) hnone
  rw [step, if_pos hg, AsyncCircularBufferStream.consume, if_pos hflag, CircularBuffer.consume,
    dif_pos hle]
  rfl

/-! ### Runs -/

theorem run_pipe {hk : k ≤ 30} {f p : SizeT} {acts : List Act}
    (hwithin : ∀ a ∈ acts, a.WithinGrant) (h : Run.run step (init hk f p) acts = some c) :
    c.consumed ++ c.stream.buffer.contents = c.committed := by
  refine (Run.run_invariant_along (P := fun _ a => a.WithinGrant)
    (I := fun c : Session k => c.stream.Sound c.writeGranted c.readGranted ∧
      c.consumed ++ c.stream.buffer.contents = c.committed) ?_
    (Run.along_of_forall fun a ha _ => hwithin a ha) h ?_).2
  · rintro c a c' ⟨hs, hpipe⟩ ha h
    exact ⟨step_sound c a c' hs h, step_pipe hs hpipe ha h⟩
  · refine ⟨init_sound hk f p, ?_⟩
    refine List.length_eq_zero_iff.1 ?_
    simp [init, AsyncCircularBufferStream.ofSizeLog2, CircularBuffer.ofSizeLog2,
      CircularBuffer.start, CircularBuffer.size]

theorem run_view {acts : List Act} (hs : c.stream.Sound c.writeGranted c.readGranted)
    (hr : r ∈ c.readGranted) (hkeep : ∀ n, .consume r n ∉ acts)
    (h : Run.run step c acts = some c') :
    r ∈ c'.readGranted ∧ c'.stream.buffer.read r = c.stream.buffer.read r := by
  refine (Run.run_invariant_along (P := fun _ a => ∀ n, a ≠ .consume r n)
    (I := fun c' : Session k => c'.stream.Sound c'.writeGranted c'.readGranted ∧
      r ∈ c'.readGranted ∧ c'.stream.buffer.read r = c.stream.buffer.read r) ?_
    (Run.along_of_forall ?_) h ⟨hs, hr, rfl⟩).2
  · rintro c₁ a c₂ ⟨hs, hr, hview⟩ ha h
    exact ⟨step_sound c₁ a c₂ hs h, step_readGranted hr ha h, (step_view hs hr h).trans hview⟩
  · intro a ha _ n
    rintro rfl
    exact hkeep n ha

end Hittop.Session

namespace Hittop

open Session

/-- Over every run in which the parties keep within their views: one view at most of either side,
none of a byte that the other side has in view; a view of the reader that does not change until it
is consumed; and the bytes consumed and those that are buffered are the bytes committed. -/
theorem stream_is_pipe {k : ℕ} (hk : k ≤ 30) (f p : SizeT) (acts : List Act)
    (hwithin : ∀ a ∈ acts, a.WithinGrant) (c : Session k)
    (h : Run.run step (init hk f p) acts = some c) :
    c.writeGranted.length ≤ 1 ∧ c.readGranted.length ≤ 1 ∧
    (∀ w ∈ c.writeGranted, ∀ r ∈ c.readGranted, List.Disjoint (cells w) (cells r)) ∧
    (∀ r ∈ c.readGranted, ∀ acts' c', Run.run step c acts' = some c' →
      (∀ n, .consume r n ∉ acts') →
      r ∈ c'.readGranted ∧ c'.stream.buffer.read r = c.stream.buffer.read r) ∧
    c.consumed ++ c.stream.buffer.read c.stream.buffer.data = c.committed := by
  have hs : c.stream.Sound c.writeGranted c.readGranted := sound ⟨acts, h⟩
  refine ⟨hs.writeGrants_le, hs.readGrants_le, fun w hw r hr => hs.disjoint hw hr, ?_,
    run_pipe hwithin h⟩
  intro r hr acts' c' h' hkeep
  exact run_view hs hr hkeep h'

/-- The reader waits for two bytes, the writer stores and commits them, the reader consumes one. -/
theorem stream_is_pipe_consumed :
    ∃ c : Session 1, Run.run step (init (by decide) 0 0)
      [.asyncFetch 2, .asyncPrepare 1, .invoke (.prepare ⟨1, 1⟩ (.success [⟨0, 2⟩])),
        .store [⟨0, 2⟩] [⟨0, 2⟩] [7, 8], .commit [⟨0, 2⟩] 2,
        .invoke (.fetch ⟨0, 2⟩ (.success [⟨0, 2⟩])), .consume [⟨0, 2⟩] 1] = some c ∧
      [7] ++ c.stream.buffer.read c.stream.buffer.data = [7, 8] := by
  have hbytes : (Run.run step (init (by decide) 0 0 : Session 1)
      [.asyncFetch 2, .asyncPrepare 1, .invoke (.prepare ⟨1, 1⟩ (.success [⟨0, 2⟩])),
        .store [⟨0, 2⟩] [⟨0, 2⟩] [7, 8], .commit [⟨0, 2⟩] 2,
        .invoke (.fetch ⟨0, 2⟩ (.success [⟨0, 2⟩])), .consume [⟨0, 2⟩] 1]).map
      (fun c => (c.consumed, c.committed)) = some ([7], [7, 8]) := by
    decide +kernel
  obtain ⟨c, h, hc⟩ := Option.map_eq_some_iff.1 hbytes
  have hpipe := (stream_is_pipe _ _ _ _ (by decide +kernel) c h).2.2.2.2
  rw [(Prod.mk.inj hc).1, (Prod.mk.inj hc).2] at hpipe
  exact ⟨c, h, hpipe⟩

end Hittop
