/-
**End of file.**

`async_fetch` reports the end of the file where the write side is closed and there are fewer bytes
than asked for: "this operation can never succeed".  That is so as long as nothing is committed any
more.  But a view of the room that has been given out before the close can still be committed, since
`commit` does not look at the flag; then there may be enough bytes for a fetch after all.

Main definitions:

* `Hittop.EofFinal` — no fetch succeeds that asks for as much as one that has met the end of the
  file;
* `Hittop.AsyncCircularBufferStream.Decides` — what an action says about the bytes there are;
* `Hittop.Session.CommitsBelow` — a commit does not make up for what a fetch has missed.

Main results:

* `Hittop.Session.step_eof` — the step of the invariant;
* `Hittop.eof_is_final` — the end of the file is final in the runs whose commits are such;
* `Hittop.eof_not_final` — and not in another run.
-/

import Hittop.Io.Handlers

set_option relaxedAutoImplicit false
set_option autoImplicit false

namespace Hittop

/-- Of two fetches, the first of which meets the end of the file, the second does not succeed unless
it asks for less. -/
def EofThen (x y : Completion StreamCall) : Prop :=
  ∀ r r' g, x = .fetch r (.failure .eof) → y = .fetch r' (.success g) →
    r'.minimumSize.toNat < r.minimumSize.toNat

/-- Once a fetch has met the end of the file, no fetch succeeds that asks for as much. -/
def EofFinal (decided : List (Completion StreamCall)) : Prop := decided.Pairwise EofThen

namespace AsyncCircularBufferStream

variable {k : ℕ} {s s' : AsyncCircularBufferStream k StreamCall} {n m : SizeT} {h : StreamCall}
  {cs : List (Completion StreamCall)} {ws rs : List (List Buffer)}

/-! ### What an operation decides about fetches -/

/-- The fetch that is stored waits for as many bytes as it has asked for. -/
def WaitsForMinimum (s : AsyncCircularBufferStream k StreamCall) : Prop :=
  ∀ r, s.fetchHandler = some r → s.minimumToFetch = r.minimumSize

/-- What the action `cs` says is so in the state `s` that its critical section has left: a fetch
that meets the end of the file is short of bytes, and one that succeeds is not. -/
structure Decides (s : AsyncCircularBufferStream k StreamCall) (cs : List (Completion StreamCall)) :
    Prop where
  eof : ∀ r, .fetch r (.failure .eof) ∈ cs →
    s.closedForWrite = true ∧ s.buffer.size.toNat < r.minimumSize.toNat
  success : ∀ r g, .fetch r (.success g) ∈ cs → r.minimumSize.toNat ≤ s.buffer.size.toNat

theorem decides_nil : s.Decides [] := ⟨by simp, by simp⟩

theorem decides_asyncPrepare (hw : s.WaitsForMinimum) (hstep : s.asyncPrepare m h = (s', cs)) :
    s'.Decides cs ∧ s'.WaitsForMinimum := by
  rcases asyncPrepare_cases hstep with ⟨e, rfl, rfl⟩ | ⟨-, -, -, -, -, rfl, rfl⟩ |
    ⟨-, -, -, -, rfl, rfl⟩
  · exact ⟨⟨by simp, by simp⟩, hw⟩
  · exact ⟨decides_nil, hw⟩
  · exact ⟨⟨by simp, by simp⟩, hw⟩

theorem decides_asyncFetch (hm : h.minimumSize = m) (hw : s.WaitsForMinimum)
    (hstep : s.asyncFetch m h = (s', cs)) : s'.Decides cs ∧ s'.WaitsForMinimum := by
  subst hm
  rcases asyncFetch_cases hstep with ⟨e, rfl, rfl, heof⟩ | ⟨-, -, -, -, -, rfl, rfl⟩ |
    ⟨-, -, hsize, rfl, rfl⟩
  · refine ⟨⟨?_, by simp⟩, hw⟩
    intro r hr
    obtain ⟨rfl, rfl⟩ : r = h ∧ StreamError.eof = e := by simpa using hr
    exact ⟨(heof rfl).1, BitVec.lt_def.1 (heof rfl).2⟩
  · refine ⟨decides_nil, ?_⟩
    intro r hr
    obtain rfl : h = r := by simpa using hr
    rfl
  · refine ⟨⟨by simp, ?_⟩, hw⟩
    intro r g hr
    obtain ⟨rfl, -⟩ : r = h ∧ g = s.buffer.data := by simpa using hr
    exact BitVec.le_def.1 hsize

theorem decides_commit (hw : s.WaitsForMinimum) (hstep : s.commit n = some (s', cs)) :
    s'.Decides cs ∧ s'.WaitsForMinimum := by
  obtain ⟨-, b, -, ⟨h, hf, hle, rfl, rfl⟩ | ⟨-, rfl, rfl⟩⟩ := commit_cases hstep
  · refine ⟨⟨by simp, ?_⟩, by simp [WaitsForMinimum]⟩
    intro r g hr
    obtain ⟨rfl, -⟩ : r = h ∧ g = b.data := by simpa using hr
    rw [← hw r hf]
    exact BitVec.le_def.1 hle
  · exact ⟨decides_nil, hw⟩

theorem decides_consume (hw : s.WaitsForMinimum) (hstep : s.consume n = some (s', cs)) :
    s'.Decides cs ∧ s'.WaitsForMinimum := by
  obtain ⟨-, b, -, ⟨h, -, -, rfl, rfl⟩ | ⟨-, rfl, rfl⟩⟩ := consume_cases hstep
  · exact ⟨⟨by simp, by simp⟩, hw⟩
  · exact ⟨decides_nil, hw⟩

/-- The fetch that `close_for_write` tells the end of the file has been short of bytes. -/
theorem decides_closeForWrite (hs : s.Sound ws rs) (hw : s.WaitsForMinimum)
    (hstep : s.closeForWrite = (s', cs)) : s'.Decides cs ∧ s'.WaitsForMinimum := by
  cases hclosed : s.closedForWrite with
  | true =>
      rw [closeForWrite_of_closed hclosed] at hstep
      cases hstep
      exact ⟨decides_nil, hw⟩
  | false =>
      rw [closeForWrite_of_open hclosed] at hstep
      cases hstep
      refine ⟨⟨?_, by simp⟩, by simp [WaitsForMinimum]⟩
      intro r hr
      have hf : s.fetchHandler = some r := by simpa using hr
      obtain ⟨-, -, hlt, -⟩ := hs.fetchWaits r hf
      rw [hw r hf] at hlt
      exact ⟨rfl, BitVec.lt_def.1 hlt⟩

theorem decides_closeForRead (hw : s.WaitsForMinimum) (hstep : s.closeForRead = (s', cs)) :
    s'.Decides cs ∧ s'.WaitsForMinimum := by
  cases hclosed : s.closedForRead with
  | true =>
      rw [closeForRead_of_closed hclosed] at hstep
      cases hstep
      exact ⟨decides_nil, hw⟩
  | false =>
      rw [closeForRead_of_open hclosed] at hstep
      cases hstep
      exact ⟨⟨by simp, by simp⟩, by simp [WaitsForMinimum]⟩

end AsyncCircularBufferStream

namespace Session

open AsyncCircularBufferStream

variable {k : ℕ} {c c' : Session k} {a : Act}

/-! ### Runs -/

/-- A commit leaves fewer bytes than a fetch has asked for that has met the end of the file. -/
def CommitsBelow (c : Session k) : Act → Prop
  | .commit _ n => ∀ r, .fetch r (.failure .eof) ∈ c.decided →
      c.stream.buffer.size.toNat + n.toNat < r.minimumSize.toNat
  | _ => True

/-- What a step decides, and that only a commit adds bytes. -/
theorem step_decides (hs : c.stream.Sound c.writeGranted c.readGranted)
    (hw : c.stream.WaitsForMinimum) (h : c.step a = some c') :
    ∃ cs, c'.decided = c.decided ++ cs ∧ c'.stream.Decides cs ∧ c'.stream.WaitsForMinimum ∧
      (c'.stream.buffer.size.toNat ≤ c.stream.buffer.size.toNat ∨
        ∃ g n, a = .commit g n ∧
          c'.stream.buffer.size.toNat = c.stream.buffer.size.toNat + n.toNat) := by
  have hsame : ∀ b : CircularBuffer k, b = c.stream.buffer →
      b.size.toNat ≤ c.stream.buffer.size.toNat := by
    rintro b rfl
    exact Nat.le_refl _
  cases a with
  | asyncPrepare m =>
      cases h
      obtain ⟨hdecides, hw⟩ := decides_asyncPrepare hw rfl
      exact ⟨_, rfl, hdecides, hw, .inl (hsame _ (asyncPrepare_buffer rfl))⟩
  | asyncFetch m =>
      cases h
      obtain ⟨hdecides, hw⟩ := decides_asyncFetch (h := ⟨c.calls.length, m⟩) rfl hw rfl
      exact ⟨_, rfl, hdecides, hw, .inl (hsame _ (asyncFetch_buffer rfl))⟩
  | closeForWrite =>
      cases h
      obtain ⟨hdecides, hw⟩ := decides_closeForWrite hs hw rfl
      exact ⟨_, rfl, hdecides, hw, .inl (hsame _ closeForWrite_buffer)⟩
  | closeForRead =>
      cases h
      obtain ⟨hdecides, hw⟩ := decides_closeForRead hw rfl
      exact ⟨_, rfl, hdecides, hw, .inl (hsame _ closeForRead_buffer)⟩
  | commit g n =>
      obtain ⟨-, ⟨s, cs⟩, hcommit, rfl⟩ := step_commit h
      obtain ⟨hdecides, hw⟩ := decides_commit hw hcommit
      exact ⟨cs, rfl, hdecides, hw,
        .inr ⟨g, n, rfl, CircularBuffer.size_commit (commit_buffer hcommit)⟩⟩
  | consume g n =>
      obtain ⟨-, ⟨s, cs⟩, hconsume, rfl⟩ := step_consume h
      obtain ⟨hdecides, hw⟩ := decides_consume hw hconsume
      have hsize := CircularBuffer.size_consume (consume_buffer hconsume)
      exact ⟨cs, rfl, hdecides, hw, .inl (hsize.le.trans (Nat.sub_le _ _))⟩
  | invoke x =>
      obtain ⟨-, rfl⟩ := step_invoke h
      exact ⟨[], (List.append_nil _).symm, decides_nil, hw, .inl (Nat.le_refl _)⟩
  | store g xs vs =>
      obtain ⟨-, rfl⟩ := step_store h
      exact ⟨[], (List.append_nil _).symm, decides_nil, hw, .inl (Nat.le_refl _)⟩

/-- The fetches that have met the end of the file would meet it again. -/
structure AtEof (c : Session k) : Prop where
  sound : c.stream.Sound c.writeGranted c.readGranted
  waits : c.stream.WaitsForMinimum
  short : ∀ r, .fetch r (.failure .eof) ∈ c.decided →
    c.stream.closedForWrite = true ∧ c.stream.buffer.size.toNat < r.minimumSize.toNat
  final : EofFinal c.decided

theorem step_eof (hc : c.AtEof) (ha : c.CommitsBelow a) (h : c.step a = some c') : c'.AtEof := by
  obtain ⟨cs, hdecided, hdecides, hw, hsize⟩ := step_decides hc.sound hc.waits h
  have hshort : ∀ r, .fetch r (.failure .eof) ∈ c'.decided →
      c'.stream.closedForWrite = true ∧ c'.stream.buffer.size.toNat < r.minimumSize.toNat := by
    intro r hr
    rw [hdecided] at hr
    rcases List.mem_append.1 hr with hr | hr
    · obtain ⟨hclosed, hlt⟩ := hc.short r hr
      refine ⟨(step_closed hc.sound h).2 hclosed, ?_⟩
      rcases hsize with hle | ⟨g, n, rfl, heq⟩
      · exact Nat.lt_of_le_of_lt hle hlt
      · rw [heq]
        exact ha r hr
    · exact hdecides.eof r hr
  refine ⟨step_sound c a c' hc.sound h, hw, hshort, ?_⟩
  -- a fetch that succeeds has no more bytes asked for than there are
  have hlater : ∀ x ∈ c'.decided, ∀ y ∈ cs, EofThen x y := by
    rintro x hx y hy r r' g rfl rfl
    exact Nat.lt_of_le_of_lt (hdecides.success r' g hy) (hshort r hx).2
  rw [EofFinal, hdecided]
  refine List.pairwise_append.2 ⟨hc.final, ?_, ?_⟩
  · refine List.Pairwise.imp_of_mem (R := fun _ _ => True) ?_ (List.pairwise_of_forall fun _ _ =>
      trivial)
    intro x y hx hy _
    exact hlater x (by rw [hdecided]; exact List.mem_append_right _ hx) y hy
  · intro x hx y hy
    exact hlater x (by rw [hdecided]; exact List.mem_append_left _ hx) y hy

end Session

open Session AsyncCircularBufferStream

/-- In a run in which no commit makes up for what a fetch has missed that has met the end of the
file, the write side is closed and the bytes are too few from then on, and no fetch succeeds that
asks for as much. -/
theorem eof_is_final {k : ℕ} (hk : k ≤ 30) (f p : SizeT) (acts : List Act) (c : Session k)
    (h : Run.run step (init hk f p) acts = some c)
    (hcommits : Run.Along step CommitsBelow (init hk f p : Session k) acts) :
    (∀ r, .fetch r (.failure .eof) ∈ c.decided →
      c.stream.closedForWrite = true ∧ c.stream.buffer.size.toNat < r.minimumSize.toNat) ∧
    EofFinal c.decided := by
  have hinit : (init hk f p : Session k).AtEof :=
    ⟨init_sound hk f p, by simp [WaitsForMinimum, init, ofSizeLog2], by simp [init],
      List.Pairwise.nil⟩
  have hc := Run.run_invariant_along (I := AtEof) (fun s a s' hs ha h => step_eof hs ha h)
    hcommits h hinit
  exact ⟨hc.short, hc.final⟩

/-- A fetch of a byte meets the end of the file, and one of no bytes succeeds. -/
theorem eof_is_final_short :
    ∃ c : Session 0, Run.run step (init (by decide) 0 0)
      [.closeForWrite, .asyncFetch 1, .asyncFetch 0] = some c ∧ EofFinal c.decided := by
  refine ⟨_, rfl, ?_⟩
  refine (eof_is_final (by decide) 0 0 [.closeForWrite, .asyncFetch 1, .asyncFetch 0] _ rfl ?_).2
  exact Run.along_of_forall (by simp [CommitsBelow])

/-- A view of the room that is given out before the close is committed after a fetch has met the end
of the file. -/
theorem eof_not_final :
    ∃ c : Session 0, Run.run step (init (by decide) 0 0)
      [.asyncPrepare 1, .invoke (.prepare ⟨0, 1⟩ (.success [⟨0, 1⟩])), .closeForWrite,
        .asyncFetch 1, .commit [⟨0, 1⟩] 1, .asyncFetch 1] = some c ∧ ¬ EofFinal c.decided := by
  refine ⟨_, rfl, ?_⟩
  intro hfinal
  have hthen := List.pairwise_iff_getElem.1 hfinal 1 2 (by decide) (by decide) (by decide)
  exact absurd (hthen ⟨1, 1⟩ ⟨2, 1⟩ [⟨0, 1⟩] rfl rfl) (by decide)

end Hittop
