/-
**The asynchronous stream** (`io/async_circular_buffer_stream.h`).

A ring buffer with a writer on one side and a reader on the other.  Each asks for a number of bytes
and is called back, at once or by an operation of the other side.  An operation is one critical
section; what it returns is the action that is run after the mutex has been released, the handlers
that are invoked with their arguments.

Main definitions:

* `Hittop.StreamError`, `Hittop.Outcome`, `Hittop.Completion` — what a handler is invoked with;
* `Hittop.AsyncCircularBufferStream` — the members of the class;
* `Hittop.AsyncCircularBufferStream.asyncPrepare`, `commit`, `closeForWrite`, `asyncFetch`,
  `consume`, `closeForRead` — its operations.

Main results:

* `asyncPrepare_cases`, `asyncFetch_cases`, `commit_cases`, `consume_cases` — all that an operation
  can do;
* `closeForWrite_of_open`, `closeForRead_of_open` — closing, whichever handlers wait.
-/

import Hittop.Io.CircularBuffer

set_option relaxedAutoImplicit false
set_option autoImplicit false

namespace Hittop

/-- The errors of `boost::asio::error` that the stream reports. -/
inductive StreamError
  | invalidArgument
  | shutDown
  | brokenPipe
  | alreadyStarted
  | eof
  deriving DecidableEq, Repr

/-- The arguments of a handler: buffers without an error, or an error without buffers. -/
inductive Outcome
  | success (buffers : List Buffer)
  | failure (e : StreamError)
  deriving DecidableEq, Repr

/-- The invocation of a handler that `async_prepare` or `async_fetch` has been called with. -/
inductive Completion (H : Type)
  | prepare (handler : H) (outcome : Outcome)
  | fetch (handler : H) (outcome : Outcome)
  deriving DecidableEq

/-- `AsyncCircularBufferStream`; the mutex is free between the operations. -/
structure AsyncCircularBufferStream (sizeLog2 : ℕ) (H : Type) where
  buffer : CircularBuffer sizeLog2
  writeInProgress : Bool
  readInProgress : Bool
  closedForRead : Bool
  closedForWrite : Bool
  minimumToFetch : SizeT
  minimumToPrepare : SizeT
  fetchHandler : Option H
  prepareHandler : Option H
  deriving DecidableEq

namespace AsyncCircularBufferStream

variable {k : ℕ} {H : Type}

/-- The constructor.  The two minimums are not initialized; they are read only while a handler is
stored. -/
def ofSizeLog2 (k : ℕ) (hk : k ≤ 30) (minimumToFetch minimumToPrepare : SizeT) :
    AsyncCircularBufferStream k H where
  buffer := .ofSizeLog2 k hk
  writeInProgress := false
  readInProgress := false
  closedForRead := false
  closedForWrite := false
  minimumToFetch := minimumToFetch
  minimumToPrepare := minimumToPrepare
  fetchHandler := none
  prepareHandler := none

def asyncPrepare (s : AsyncCircularBufferStream k H) (minimumSize : SizeT) (handler : H) :
    AsyncCircularBufferStream k H × List (Completion H) :=
  if minimumSize > s.buffer.maxSize then
    (s, [.prepare handler (.failure .invalidArgument)])
  else if s.closedForWrite then
    (s, [.prepare handler (.failure .shutDown)])
  else if s.closedForRead then
    (s, [.prepare handler (.failure .brokenPipe)])
  else if s.writeInProgress then
    (s, [.prepare handler (.failure .alreadyStarted)])
  else if s.buffer.space < minimumSize then
    ({ s with
        writeInProgress := true
        minimumToPrepare := minimumSize
        prepareHandler := some handler }, [])
  else
    ({ s with writeInProgress := true }, [.prepare handler (.success s.buffer.prepare)])

def commit (s : AsyncCircularBufferStream k H) (byteCount : SizeT) :
    Option (AsyncCircularBufferStream k H × List (Completion H)) :=
  if s.writeInProgress then
    (s.buffer.commit byteCount).map fun buffer =>
      match s.fetchHandler with
      | some handler =>
          if buffer.size ≥ s.minimumToFetch then
            ({ s with buffer, writeInProgress := false, fetchHandler := none },
              [.fetch handler (.success buffer.data)])
          else ({ s with buffer, writeInProgress := false }, [])
      | none => ({ s with buffer, writeInProgress := false }, [])
  else none

def closeForWrite (s : AsyncCircularBufferStream k H) :
    AsyncCircularBufferStream k H × List (Completion H) :=
  if s.closedForWrite then (s, [])
  else
    match s.fetchHandler, s.prepareHandler with
    | some fetchHandler, some prepareHandler =>
        ({ s with
            closedForWrite := true
            prepareHandler := none
            fetchHandler := none
            readInProgress := false
            writeInProgress := false },
          [.prepare prepareHandler (.failure .shutDown), .fetch fetchHandler (.failure .eof)])
    | some fetchHandler, none =>
        ({ s with closedForWrite := true, fetchHandler := none, readInProgress := false },
          [.fetch fetchHandler (.failure .eof)])
    | none, some prepareHandler =>
        ({ s with closedForWrite := true, prepareHandler := none, writeInProgress := false },
          [.prepare prepareHandler (.failure .shutDown)])
    | none, none => ({ s with closedForWrite := true }, [])

def asyncFetch (s : AsyncCircularBufferStream k H) (minimumSize : SizeT) (handler : H) :
    AsyncCircularBufferStream k H × List (Completion H) :=
  if minimumSize > s.buffer.maxSize then
    (s, [.fetch handler (.failure .invalidArgument)])
  else if s.closedForRead then
    (s, [.fetch handler (.failure .shutDown)])
  else if s.readInProgress then
    (s, [.fetch handler (.failure .alreadyStarted)])
  else if minimumSize > s.buffer.size then
    if s.closedForWrite then
      (s, [.fetch handler (.failure .eof)])
    else
      ({ s with
          readInProgress := true
          minimumToFetch := minimumSize
          fetchHandler := some handler }, [])
  else
    ({ s with readInProgress := true }, [.fetch handler (.success s.buffer.data)])

def consume (s : AsyncCircularBufferStream k H) (byteCount : SizeT) :
    Option (AsyncCircularBufferStream k H × List (Completion H)) :=
  if s.readInProgress then
    (s.buffer.consume byteCount).map fun buffer =>
      match s.prepareHandler with
      | some handler =>
          if s.minimumToPrepare ≤ buffer.space then
            ({ s with buffer, readInProgress := false, prepareHandler := none },
              [.prepare handler (.success buffer.prepare)])
          else ({ s with buffer, readInProgress := false }, [])
      | none => ({ s with buffer, readInProgress := false }, [])
  else none

def closeForRead (s : AsyncCircularBufferStream k H) :
    AsyncCircularBufferStream k H × List (Completion H) :=
  if s.closedForRead then (s, [])
  else
    match s.fetchHandler, s.prepareHandler with
    | some fetchHandler, some prepareHandler =>
        ({ s with closedForRead := true, fetchHandler := none, prepareHandler := none },
          [.fetch fetchHandler (.failure .shutDown),
            .prepare prepareHandler (.failure .brokenPipe)])
    | some fetchHandler, none =>
        ({ s with closedForRead := true, fetchHandler := none },
          [.fetch fetchHandler (.failure .shutDown)])
    | none, some prepareHandler =>
        ({ s with closedForRead := true, prepareHandler := none },
          [.prepare prepareHandler (.failure .brokenPipe)])
    | none, none => ({ s with closedForRead := true }, [])

variable {s s' : AsyncCircularBufferStream k H} {n m : SizeT} {h : H} {cs : List (Completion H)}

/-! ### All that an operation can do -/

/-- `async_prepare` reports an error at once, waits, or gives out the room there is. -/
theorem asyncPrepare_cases (hs : s.asyncPrepare m h = (s', cs)) :
    (∃ e, s' = s ∧ cs = [.prepare h (.failure e)]) ∨
    (m ≤ s.buffer.maxSize ∧ s.closedForWrite = false ∧ s.closedForRead = false ∧
      s.writeInProgress = false ∧ s.buffer.space < m ∧ cs = [] ∧
      s' = { s with writeInProgress := true, minimumToPrepare := m, prepareHandler := some h }) ∨
    (s.closedForWrite = false ∧ s.closedForRead = false ∧ s.writeInProgress = false ∧
      m ≤ s.buffer.space ∧ cs = [.prepare h (.success s.buffer.prepare)] ∧
      s' = { s with writeInProgress := true }) := by
  unfold asyncPrepare at hs
  split at hs
  · exact .inl ⟨_, (Prod.mk.inj hs).1.symm, (Prod.mk.inj hs).2.symm⟩
  rename_i hm
  split at hs
  · exact .inl ⟨_, (Prod.mk.inj hs).1.symm, (Prod.mk.inj hs).2.symm⟩
  rename_i hw
  split at hs
  · exact .inl ⟨_, (Prod.mk.inj hs).1.symm, (Prod.mk.inj hs).2.symm⟩
  rename_i hr
  split at hs
  · exact .inl ⟨_, (Prod.mk.inj hs).1.symm, (Prod.mk.inj hs).2.symm⟩
  rename_i hp
  obtain ⟨hw, hr, hp⟩ : s.closedForWrite = false ∧ s.closedForRead = false ∧
      s.writeInProgress = false := by simp_all
  split at hs
  · rename_i hspace
    exact .inr (.inl ⟨BitVec.not_lt.1 hm, hw, hr, hp, hspace, (Prod.mk.inj hs).2.symm,
      (Prod.mk.inj hs).1.symm⟩)
  · rename_i hspace
    exact .inr (.inr ⟨hw, hr, hp, BitVec.not_lt.1 hspace, (Prod.mk.inj hs).2.symm,
      (Prod.mk.inj hs).1.symm⟩)

/-- `async_fetch` reports an error at once, waits, or gives out the bytes there are.  It reports the
end of the file where there are too few bytes and the write side is closed. -/
theorem asyncFetch_cases (hs : s.asyncFetch m h = (s', cs)) :
    (∃ e, s' = s ∧ cs = [.fetch h (.failure e)] ∧
      (e = .eof → s.closedForWrite = true ∧ s.buffer.size < m)) ∨
    (m ≤ s.buffer.maxSize ∧ s.closedForWrite = false ∧ s.closedForRead = false ∧
      s.readInProgress = false ∧ s.buffer.size < m ∧ cs = [] ∧
      s' = { s with readInProgress := true, minimumToFetch := m, fetchHandler := some h }) ∨
    (s.closedForRead = false ∧ s.readInProgress = false ∧ m ≤ s.buffer.size ∧
      cs = [.fetch h (.success s.buffer.data)] ∧ s' = { s with readInProgress := true }) := by
  unfold asyncFetch at hs
  split at hs
  · exact .inl ⟨_, (Prod.mk.inj hs).1.symm, (Prod.mk.inj hs).2.symm, by simp⟩
  rename_i hm
  split at hs
  · exact .inl ⟨_, (Prod.mk.inj hs).1.symm, (Prod.mk.inj hs).2.symm, by simp⟩
  rename_i hr
  split at hs
  · exact .inl ⟨_, (Prod.mk.inj hs).1.symm, (Prod.mk.inj hs).2.symm, by simp⟩
  rename_i hp
  obtain ⟨hr, hp⟩ : s.closedForRead = false ∧ s.readInProgress = false := by simp_all
  split at hs
  · rename_i hsize
    split at hs
    · rename_i hw
      exact .inl ⟨_, (Prod.mk.inj hs).1.symm, (Prod.mk.inj hs).2.symm, fun _ => ⟨hw, hsize⟩⟩
    · rename_i hw
      exact .inr (.inl ⟨BitVec.not_lt.1 hm, by simpa using hw, hr, hp, hsize,
        (Prod.mk.inj hs).2.symm, (Prod.mk.inj hs).1.symm⟩)
  · rename_i hsize
    exact .inr (.inr ⟨hr, hp, BitVec.not_lt.1 hsize, (Prod.mk.inj hs).2.symm,
      (Prod.mk.inj hs).1.symm⟩)

/-- `commit` completes the fetch that waits, if there are enough bytes now. -/
theorem commit_cases (hs : s.commit n = some (s', cs)) :
    s.writeInProgress = true ∧ ∃ b, s.buffer.commit n = some b ∧
      ((∃ h, s.fetchHandler = some h ∧ s.minimumToFetch ≤ b.size ∧
          cs = [.fetch h (.success b.data)] ∧
          s' = { s with buffer := b, writeInProgress := false, fetchHandler := none }) ∨
        ((s.fetchHandler = none ∨ b.size < s.minimumToFetch) ∧ cs = [] ∧
          s' = { s with buffer := b, writeInProgress := false })) := by
  unfold commit at hs
  split at hs
  · rename_i hw
    obtain ⟨b, hb, hs⟩ := Option.map_eq_some_iff.1 hs
    refine ⟨hw, b, hb, ?_⟩
    split at hs
    · rename_i h hh
      split at hs
      · rename_i hle
        exact .inl ⟨h, hh, hle, (Prod.mk.inj hs).2.symm, (Prod.mk.inj hs).1.symm⟩
      · rename_i hlt
        exact .inr ⟨.inr (BitVec.not_le.1 hlt), (Prod.mk.inj hs).2.symm,
          (Prod.mk.inj hs).1.symm⟩
    · rename_i hh
      exact .inr ⟨.inl hh, (Prod.mk.inj hs).2.symm, (Prod.mk.inj hs).1.symm⟩
  · simp at hs

/-- `consume` completes the preparation that waits, if there is enough room now. -/
theorem consume_cases (hs : s.consume n = some (s', cs)) :
    s.readInProgress = true ∧ ∃ b, s.buffer.consume n = some b ∧
      ((∃ h, s.prepareHandler = some h ∧ s.minimumToPrepare ≤ b.space ∧
          cs = [.prepare h (.success b.prepare)] ∧
          s' = { s with buffer := b, readInProgress := false, prepareHandler := none }) ∨
        ((s.prepareHandler = none ∨ b.space < s.minimumToPrepare) ∧ cs = [] ∧
          s' = { s with buffer := b, readInProgress := false })) := by
  unfold consume at hs
  split at hs
  · rename_i hr
    obtain ⟨b, hb, hs⟩ := Option.map_eq_some_iff.1 hs
    refine ⟨hr, b, hb, ?_⟩
    split at hs
    · rename_i h hh
      split at hs
      · rename_i hle
        exact .inl ⟨h, hh, hle, (Prod.mk.inj hs).2.symm, (Prod.mk.inj hs).1.symm⟩
      · rename_i hlt
        exact .inr ⟨.inr (BitVec.not_le.1 hlt), (Prod.mk.inj hs).2.symm,
          (Prod.mk.inj hs).1.symm⟩
    · rename_i hh
      exact .inr ⟨.inl hh, (Prod.mk.inj hs).2.symm, (Prod.mk.inj hs).1.symm⟩
  · simp at hs

theorem closeForWrite_of_closed (hw : s.closedForWrite = true) : s.closeForWrite = (s, []) := by
  rw [closeForWrite, if_pos hw]

theorem closeForRead_of_closed (hr : s.closedForRead = true) : s.closeForRead = (s, []) := by
  rw [closeForRead, if_pos hr]

/-- `close_for_write` invokes the handlers that are stored and resets the flags of their sides. -/
theorem closeForWrite_of_open (hw : s.closedForWrite = false) : s.closeForWrite =
    ({ s with
        closedForWrite := true
        fetchHandler := none
        prepareHandler := none
        readInProgress := s.readInProgress && s.fetchHandler.isNone
        writeInProgress := s.writeInProgress && s.prepareHandler.isNone },
      s.prepareHandler.toList.map (fun h => .prepare h (.failure .shutDown)) ++
        s.fetchHandler.toList.map (fun h => .fetch h (.failure .eof))) := by
  obtain ⟨b, w, r, cr, cw, mf, mp, fh, ph⟩ := s
  simp only at hw
  subst hw
  cases fh <;> cases ph <;> simp [closeForWrite]

/-- `close_for_read` invokes the handlers that are stored and leaves the flags as they are. -/
theorem closeForRead_of_open (hr : s.closedForRead = false) : s.closeForRead =
    ({ s with closedForRead := true, fetchHandler := none, prepareHandler := none },
      s.fetchHandler.toList.map (fun h => .fetch h (.failure .shutDown)) ++
        s.prepareHandler.toList.map (fun h => .prepare h (.failure .brokenPipe))) := by
  obtain ⟨b, w, r, cr, cw, mf, mp, fh, ph⟩ := s
  simp only at hr
  subst hr
  cases fh <;> cases ph <;> simp [closeForRead]

/-! ### The buffer -/

theorem asyncPrepare_buffer (hs : s.asyncPrepare m h = (s', cs)) : s'.buffer = s.buffer := by
  rcases asyncPrepare_cases hs with ⟨_, rfl, -⟩ | ⟨-, -, -, -, -, -, rfl⟩ | ⟨-, -, -, -, -, rfl⟩ <;>
    rfl

theorem asyncFetch_buffer (hs : s.asyncFetch m h = (s', cs)) : s'.buffer = s.buffer := by
  rcases asyncFetch_cases hs with ⟨_, rfl, -, -⟩ | ⟨-, -, -, -, -, -, rfl⟩ | ⟨-, -, -, -, rfl⟩ <;>
    rfl

theorem closeForWrite_buffer : s.closeForWrite.1.buffer = s.buffer := by
  cases hw : s.closedForWrite with
  | true => rw [closeForWrite_of_closed hw]
  | false => rw [closeForWrite_of_open hw]

theorem closeForRead_buffer : s.closeForRead.1.buffer = s.buffer := by
  cases hr : s.closedForRead with
  | true => rw [closeForRead_of_closed hr]
  | false => rw [closeForRead_of_open hr]

theorem commit_buffer (hs : s.commit n = some (s', cs)) : s.buffer.commit n = some s'.buffer := by
  obtain ⟨-, b, hb, ⟨_, -, -, -, rfl⟩ | ⟨-, -, rfl⟩⟩ := commit_cases hs <;> exact hb

theorem consume_buffer (hs : s.consume n = some (s', cs)) :
    s.buffer.consume n = some s'.buffer := by
  obtain ⟨-, b, hb, ⟨_, -, -, -, rfl⟩ | ⟨-, -, rfl⟩⟩ := consume_cases hs <;> exact hb

end AsyncCircularBufferStream

end Hittop
