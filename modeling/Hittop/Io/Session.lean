/-
**Sessions**: a stream with the parties that use it.

The parties call the operations of the stream, in any order, from anywhere: every call is one
critical section, and the handlers that its action invokes are invoked later, one at a time, with
other critical sections in between.  A handler that is invoked with buffers gives a party a view of
the storage, through which it stores or reads bytes until it commits or consumes them.

Main definitions:

* `Hittop.StreamCall` — a call of `async_prepare` or `async_fetch`, which stands for its handler;
* `Hittop.Session`, `Hittop.Act`, `Hittop.Session.step` — the states and steps of the system;
* `Hittop.Session.writeGranted`, `Hittop.Session.readGranted` — the views that are outstanding;
* `Hittop.AsyncCircularBufferStream.Sound` — what holds of a stream and the views of its storage.

Main results:

* `Hittop.Session.step_cases` — what a step can do to what has been decided and to the storage;
* `Hittop.Session.step_sound` — every step keeps a stream sound;
* `Hittop.Session.sound` — the stream of a session is sound;
* `Hittop.no_lost_wakeup` — a handler that is stored waits for something that is not there yet.
-/

import Hittop.Io.RingQueue
import Hittop.Io.Stream

set_option relaxedAutoImplicit false
set_option autoImplicit false

namespace Hittop

/-- A call of `async_prepare` or `async_fetch`.  Calls are numbered, so that the handlers of two
calls are different. -/
structure StreamCall where
  id : ℕ
  minimumSize : SizeT
  deriving DecidableEq, Repr

namespace Completion

variable {H : Type}

def handler : Completion H → H
  | prepare h _ => h
  | fetch h _ => h

/-- The view that the writer gets. -/
def prepared : Completion H → Option (List Buffer)
  | prepare _ (.success g) => some g
  | _ => none

/-- The view that the reader gets. -/
def fetched : Completion H → Option (List Buffer)
  | fetch _ (.success g) => some g
  | _ => none

end Completion

/-- The stream and its parties, between two critical sections. -/
structure Session (k : ℕ) where
  stream : AsyncCircularBufferStream k StreamCall
  /-- The calls of `async_prepare` and `async_fetch` so far. -/
  calls : List StreamCall
  /-- What the actions of the critical sections so far invoke, in the order of the sections. -/
  decided : List (Completion StreamCall)
  /-- What they have yet to invoke. -/
  pending : List (Completion StreamCall)
  /-- What they have invoked. -/
  invoked : List (Completion StreamCall)
  /-- The views of the writer and of the reader that have not been committed or consumed. -/
  writeGrants : List (List Buffer)
  readGrants : List (List Buffer)
  /-- The bytes committed and the bytes consumed so far. -/
  committed : List Byte
  consumed : List Byte

inductive Act
  | asyncPrepare (minimumSize : SizeT)
  | commit (grant : List Buffer) (byteCount : SizeT)
  | closeForWrite
  | asyncFetch (minimumSize : SizeT)
  | consume (grant : List Buffer) (byteCount : SizeT)
  | closeForRead
  /-- An action invokes a handler. -/
  | invoke (x : Completion StreamCall)
  /-- The writer stores bytes in segments of its view. -/
  | store (grant segments : List Buffer) (vs : List Byte)

namespace Act

/-- No more bytes are committed or consumed than have been granted. -/
def WithinGrant : Act → Prop
  | commit grant n => n.toNat ≤ bufferSize grant
  | consume grant n => n.toNat ≤ bufferSize grant
  | _ => True

instance (a : Act) : Decidable a.WithinGrant :=
  match a with
  | commit grant n => Nat.decLe n.toNat (bufferSize grant)
  | consume grant n => Nat.decLe n.toNat (bufferSize grant)
  | asyncPrepare _ | closeForWrite | asyncFetch _ | closeForRead | invoke _ | store _ _ _ =>
      .isTrue trivial

end Act

namespace Session

variable {k : ℕ}

/-- A new stream. -/
def init (hk : k ≤ 30) (minimumToFetch minimumToPrepare : SizeT) : Session k where
  stream := .ofSizeLog2 k hk minimumToFetch minimumToPrepare
  calls := []
  decided := []
  pending := []
  invoked := []
  writeGrants := []
  readGrants := []
  committed := []
  consumed := []

/-- A critical section has left the stream `r.1` and returned the action `r.2`. -/
def call (c : Session k)
    (r : AsyncCircularBufferStream k StreamCall × List (Completion StreamCall)) : Session k :=
  { c with stream := r.1, decided := c.decided ++ r.2, pending := c.pending ++ r.2 }

/-- A party calls an operation, as far as the assertions hold and it has the view that it commits or
consumes; or an action invokes a handler; or the writer stores bytes. -/
def step (c : Session k) : Act → Option (Session k)
  | .asyncPrepare m =>
      let r : StreamCall := ⟨c.calls.length, m⟩
      some { c.call (c.stream.asyncPrepare m r) with calls := c.calls ++ [r] }
  | .commit g n =>
      if g ∈ c.writeGrants then
        (c.stream.commit n).map fun r =>
          { c.call r with
            writeGrants := c.writeGrants.erase g
            committed := c.committed ++ (c.stream.buffer.read g).take n.toNat }
      else none
  | .closeForWrite => some (c.call c.stream.closeForWrite)
  | .asyncFetch m =>
      let r : StreamCall := ⟨c.calls.length, m⟩
      some { c.call (c.stream.asyncFetch m r) with calls := c.calls ++ [r] }
  | .consume g n =>
      if g ∈ c.readGrants then
        (c.stream.consume n).map fun r =>
          { c.call r with
            readGrants := c.readGrants.erase g
            consumed := c.consumed ++ (c.stream.buffer.read g).take n.toNat }
      else none
  | .closeForRead => some (c.call c.stream.closeForRead)
  | .invoke x =>
      if x ∈ c.pending then
        some { c with
          pending := c.pending.erase x
          invoked := c.invoked ++ [x]
          writeGrants := c.writeGrants ++ x.prepared.toList
          readGrants := c.readGrants ++ x.fetched.toList }
      else none
  | .store g xs vs =>
      if g ∈ c.writeGrants ∧ ∀ p ∈ cells xs, p ∈ cells g then
        some { c with stream := { c.stream with buffer := c.stream.buffer.write xs vs } }
      else none

/-- The views of the room that are outstanding, those included that a handler has yet to be told. -/
def writeGranted (c : Session k) : List (List Buffer) :=
  c.pending.filterMap Completion.prepared ++ c.writeGrants

/-- The views of the bytes that are outstanding. -/
def readGranted (c : Session k) : List (List Buffer) :=
  c.pending.filterMap Completion.fetched ++ c.readGrants

end Session

namespace Session

open AsyncCircularBufferStream

variable {k : ℕ} {c c' : Session k} {a : Act}

/-! ### What a guarded step does -/

theorem step_commit {g : List Buffer} {n : SizeT} (h : c.step (.commit g n) = some c') :
    g ∈ c.writeGrants ∧ ∃ r, c.stream.commit n = some r ∧ c' = { c.call r with
      writeGrants := c.writeGrants.erase g
      committed := c.committed ++ (c.stream.buffer.read g).take n.toNat } := by
  rw [step] at h
  split at h
  · rename_i hg
    obtain ⟨r, hcommit, h⟩ := Option.map_eq_some_iff.1 h
    exact ⟨hg, r, hcommit, h.symm⟩
  · simp at h

theorem step_consume {g : List Buffer} {n : SizeT} (h : c.step (.consume g n) = some c') :
    g ∈ c.readGrants ∧ ∃ r, c.stream.consume n = some r ∧ c' = { c.call r with
      readGrants := c.readGrants.erase g
      consumed := c.consumed ++ (c.stream.buffer.read g).take n.toNat } := by
  rw [step] at h
  split at h
  · rename_i hg
    obtain ⟨r, hconsume, h⟩ := Option.map_eq_some_iff.1 h
    exact ⟨hg, r, hconsume, h.symm⟩
  · simp at h

theorem step_invoke {x : Completion StreamCall} (h : c.step (.invoke x) = some c') :
    x ∈ c.pending ∧ c' = { c with
      pending := c.pending.erase x
      invoked := c.invoked ++ [x]
      writeGrants := c.writeGrants ++ x.prepared.toList
      readGrants := c.readGrants ++ x.fetched.toList } := by
  rw [step] at h
  split at h
  · rename_i hx
    exact ⟨hx, (Option.some.inj h).symm⟩
  · simp at h

theorem step_store {g xs : List Buffer} {vs : List Byte} (h : c.step (.store g xs vs) = some c') :
    (g ∈ c.writeGrants ∧ ∀ p ∈ cells xs, p ∈ cells g) ∧
      c' = { c with stream := { c.stream with buffer := c.stream.buffer.write xs vs } } := by
  rw [step] at h
  split at h
  · rename_i hg
    exact ⟨hg, (Option.some.inj h).symm⟩
  · simp at h

/-- A step is a critical section, which hands its action over and leaves the storage alone; or it
invokes a handler; or it stores bytes in a view of the writer. -/
theorem step_cases (h : c.step a = some c') :
    (∃ cs, c'.decided = c.decided ++ cs ∧ c'.pending = c.pending ++ cs ∧ c'.invoked = c.invoked ∧
      c'.stream.buffer.storage = c.stream.buffer.storage ∧
      (c'.readGrants = c.readGrants ∨
        ∃ g n, a = .consume g n ∧ c'.readGrants = c.readGrants.erase g)) ∨
    (∃ x ∈ c.pending, a = .invoke x ∧ c' = { c with
      pending := c.pending.erase x
      invoked := c.invoked ++ [x]
      writeGrants := c.writeGrants ++ x.prepared.toList
      readGrants := c.readGrants ++ x.fetched.toList }) ∨
    (∃ g ∈ c.writeGrants, ∃ xs vs, a = .store g xs vs ∧ (∀ p ∈ cells xs, p ∈ cells g) ∧
      c' = { c with stream := { c.stream with buffer := c.stream.buffer.write xs vs } }) := by
  cases a with
  | asyncPrepare m =>
      cases h
      exact .inl ⟨_, rfl, rfl, rfl, congrArg _ (asyncPrepare_buffer rfl), .inl rfl⟩
  | asyncFetch m =>
      cases h
      exact .inl ⟨_, rfl, rfl, rfl, congrArg _ (asyncFetch_buffer rfl), .inl rfl⟩
  | closeForWrite =>
      cases h
      exact .inl ⟨_, rfl, rfl, rfl, congrArg _ closeForWrite_buffer, .inl rfl⟩
  | closeForRead =>
      cases h
      exact .inl ⟨_, rfl, rfl, rfl, congrArg _ closeForRead_buffer, .inl rfl⟩
  | commit g n =>
      obtain ⟨-, ⟨s, cs⟩, hcommit, rfl⟩ := step_commit h
      obtain ⟨-, hstorage, -⟩ := CircularBuffer.commit_eq_some.1 (commit_buffer hcommit)
      exact .inl ⟨cs, rfl, rfl, rfl, hstorage, .inl rfl⟩
  | consume g n =>
      obtain ⟨-, ⟨s, cs⟩, hconsume, rfl⟩ := step_consume h
      obtain ⟨-, hstorage, -⟩ := CircularBuffer.consume_eq_some.1 (consume_buffer hconsume)
      exact .inl ⟨cs, rfl, rfl, rfl, hstorage, .inr ⟨g, n, rfl, rfl⟩⟩
  | invoke x =>
      obtain ⟨hx, rfl⟩ := step_invoke h
      exact .inr (.inl ⟨x, hx, rfl, rfl⟩)
  | store g xs vs =>
      obtain ⟨hg, rfl⟩ := step_store h
      exact .inr (.inr ⟨g, hg.1, xs, vs, rfl, hg.2, rfl⟩)

end Session

/-! ### Sound streams -/

/-- What holds of a stream, the views `ws` of its room and the views `rs` of its bytes. -/
structure AsyncCircularBufferStream.Sound {k : ℕ} {H : Type} (s : AsyncCircularBufferStream k H)
    (ws rs : List (List Buffer)) : Prop where
  /-- There is one preparation at a time, and the flag is set while there is. -/
  writers : s.prepareHandler.toList.length + ws.length ≤ s.writeInProgress.toNat
  readers : s.fetchHandler.toList.length + rs.length ≤ s.readInProgress.toNat
  /-- A view of the room is at its beginning. -/
  room : ∀ g ∈ ws, ∃ m ≤ s.buffer.space.toNat,
    cells g = Ring.window (1 <<< k) s.buffer.writeHead.toNat m
  /-- A view of the bytes is at their beginning. -/
  bytes : ∀ g ∈ rs, ∃ m ≤ s.buffer.size.toNat,
    cells g = Ring.window (1 <<< k) s.buffer.readHead.toNat m
  fetchWaits : ∀ h, s.fetchHandler = some h → s.closedForRead = false ∧ s.closedForWrite = false ∧
    s.buffer.size < s.minimumToFetch ∧ s.minimumToFetch ≤ s.buffer.maxSize
  prepareWaits : ∀ h, s.prepareHandler = some h → s.closedForRead = false ∧
    s.closedForWrite = false ∧ s.buffer.space < s.minimumToPrepare ∧
    s.minimumToPrepare ≤ s.buffer.maxSize

namespace AsyncCircularBufferStream

variable {k : ℕ} {H : Type} {s s' : AsyncCircularBufferStream k H} {n m : SizeT} {h : H}
  {cs : List (Completion H)} {ws rs ws' rs' : List (List Buffer)} {g : List Buffer}

namespace Sound

theorem perm (hs : s.Sound ws rs) (hws : ws.Perm ws') (hrs : rs.Perm rs') : s.Sound ws' rs' where
  writers := by
    rw [← hws.length_eq]
    exact hs.writers
  readers := by
    rw [← hrs.length_eq]
    exact hs.readers
  room g hg := hs.room g (hws.mem_iff.2 hg)
  bytes g hg := hs.bytes g (hrs.mem_iff.2 hg)
  fetchWaits := hs.fetchWaits
  prepareWaits := hs.prepareWaits

theorem writeGrants_le (hs : s.Sound ws rs) : ws.length ≤ 1 := by
  have h := hs.writers
  have hb := Bool.toNat_le s.writeInProgress
  omega

theorem readGrants_le (hs : s.Sound ws rs) : rs.length ≤ 1 := by
  have h := hs.readers
  have hb := Bool.toNat_le s.readInProgress
  omega

/-- Where the flag is not set, nobody prepares. -/
theorem no_writer (hs : s.Sound ws rs) (hw : s.writeInProgress = false) :
    s.prepareHandler = none ∧ ws = [] := by
  have h := hs.writers
  rw [hw, Bool.toNat_false] at h
  refine ⟨?_, List.length_eq_zero_iff.1 (by omega)⟩
  cases hp : s.prepareHandler with
  | none => rfl
  | some h' => simp [hp] at h

theorem no_reader (hs : s.Sound ws rs) (hr : s.readInProgress = false) :
    s.fetchHandler = none ∧ rs = [] := by
  have h := hs.readers
  rw [hr, Bool.toNat_false] at h
  refine ⟨?_, List.length_eq_zero_iff.1 (by omega)⟩
  cases hf : s.fetchHandler with
  | none => rfl
  | some h' => simp [hf] at h

/-- While the writer has a view, nothing else is prepared. -/
theorem of_writer (hs : s.Sound ws rs) (hg : g ∈ ws) : s.prepareHandler = none ∧ ws = [g] := by
  have h := hs.writers
  have hb := Bool.toNat_le s.writeInProgress
  have hpos := List.length_pos_of_mem hg
  constructor
  · cases hp : s.prepareHandler with
    | none => rfl
    | some h' =>
        rw [hp, Option.toList_some, List.length_singleton] at h
        omega
  · obtain ⟨g', rfl⟩ := List.length_eq_one_iff.1 (by omega : ws.length = 1)
    rw [List.mem_singleton.1 hg]

theorem of_reader (hs : s.Sound ws rs) (hg : g ∈ rs) : s.fetchHandler = none ∧ rs = [g] := by
  have h := hs.readers
  have hb := Bool.toNat_le s.readInProgress
  have hpos := List.length_pos_of_mem hg
  constructor
  · cases hf : s.fetchHandler with
    | none => rfl
    | some h' =>
        rw [hf, Option.toList_some, List.length_singleton] at h
        omega
  · obtain ⟨g', rfl⟩ := List.length_eq_one_iff.1 (by omega : rs.length = 1)
    rw [List.mem_singleton.1 hg]

/-- While a fetch waits, the reader has no view. -/
theorem of_fetchHandler (hs : s.Sound ws rs) (hf : s.fetchHandler = some h) :
    s.readInProgress = true ∧ rs = [] := by
  have hr := hs.readers
  have hb := Bool.toNat_le s.readInProgress
  rw [hf, Option.toList_some, List.length_singleton] at hr
  refine ⟨?_, List.length_eq_zero_iff.1 (by omega)⟩
  cases hr' : s.readInProgress with
  | true => rfl
  | false => simp [hr'] at hr

theorem of_prepareHandler (hs : s.Sound ws rs) (hp : s.prepareHandler = some h) :
    s.writeInProgress = true ∧ ws = [] := by
  have hw := hs.writers
  have hb := Bool.toNat_le s.writeInProgress
  rw [hp, Option.toList_some, List.length_singleton] at hw
  refine ⟨?_, List.length_eq_zero_iff.1 (by omega)⟩
  cases hw' : s.writeInProgress with
  | true => rfl
  | false => simp [hw'] at hw

/-! ### Every operation keeps a stream sound -/

theorem asyncPrepare (hs : s.Sound ws rs) (hstep : s.asyncPrepare m h = (s', cs)) :
    s'.Sound (cs.filterMap Completion.prepared ++ ws) (cs.filterMap Completion.fetched ++ rs) := by
  rcases asyncPrepare_cases hstep with ⟨e, rfl, rfl⟩ | ⟨hm, hw, hr, hp, hspace, rfl, rfl⟩ |
    ⟨hw, hr, hp, hspace, rfl, rfl⟩
  · exact hs
  · obtain ⟨-, rfl⟩ := hs.no_writer hp
    refine ⟨by simp, hs.readers, by simp, hs.bytes, hs.fetchWaits, ?_⟩
    intro h' hh'
    exact ⟨hr, hw, hspace, hm⟩
  · obtain ⟨hnone, rfl⟩ := hs.no_writer hp
    refine ⟨by simp [hnone, Completion.prepared], hs.readers, ?_, hs.bytes, hs.fetchWaits,
      hs.prepareWaits⟩
    intro g hg
    obtain rfl : g = s.buffer.prepare := by simpa [Completion.prepared] using hg
    exact ⟨_, Nat.le_refl _, s.buffer.cells_prepare⟩

theorem asyncFetch (hs : s.Sound ws rs) (hstep : s.asyncFetch m h = (s', cs)) :
    s'.Sound (cs.filterMap Completion.prepared ++ ws) (cs.filterMap Completion.fetched ++ rs) := by
  rcases asyncFetch_cases hstep with ⟨e, rfl, rfl, -⟩ | ⟨hm, hw, hr, hp, hsize, rfl, rfl⟩ |
    ⟨hr, hp, hsize, rfl, rfl⟩
  · exact hs
  · obtain ⟨-, rfl⟩ := hs.no_reader hp
    refine ⟨hs.writers, by simp, hs.room, by simp, ?_, hs.prepareWaits⟩
    intro h' hh'
    exact ⟨hr, hw, hsize, hm⟩
  · obtain ⟨hnone, rfl⟩ := hs.no_reader hp
    refine ⟨hs.writers, by simp [hnone, Completion.fetched], hs.room, ?_, hs.fetchWaits,
      hs.prepareWaits⟩
    intro g hg
    obtain rfl : g = s.buffer.data := by simpa [Completion.fetched] using hg
    exact ⟨_, Nat.le_refl _, s.buffer.cells_data⟩

/-- The writer gives its view back.  Nothing is prepared, so that only a fetch can be completed, and
it could not be before. -/
theorem commit (hs : s.Sound ws rs) (hg : g ∈ ws) (hstep : s.commit n = some (s', cs)) :
    s'.Sound (cs.filterMap Completion.prepared ++ ws.erase g)
      (cs.filterMap Completion.fetched ++ rs) := by
  obtain ⟨hnone, rfl⟩ := hs.of_writer hg
  obtain ⟨-, b, hb, hcase⟩ := commit_cases hstep
  obtain ⟨-, -, hread, -⟩ := CircularBuffer.commit_eq_some.1 hb
  have hsize := CircularBuffer.size_commit hb
  have hmax : b.maxSize = s.buffer.maxSize := by
    rw [CircularBuffer.maxSize, CircularBuffer.maxSize, b.storage_length, s.buffer.storage_length]
  have hbytes : ∀ g ∈ rs, ∃ m ≤ b.size.toNat,
      cells g = Ring.window (1 <<< k) b.readHead.toNat m := by
    intro g' hg'
    obtain ⟨m, hm, hcells⟩ := hs.bytes g' hg'
    exact ⟨m, by omega, by rw [hread]; exact hcells⟩
  rw [List.erase_cons_head]
  rcases hcase with ⟨h, hf, hle, rfl, rfl⟩ | ⟨hwait, rfl, rfl⟩
  · obtain ⟨hr, rfl⟩ := hs.of_fetchHandler hf
    refine ⟨by simp [hnone, Completion.prepared], by simp [hr, Completion.fetched],
      by simp [Completion.prepared], ?_, by simp, by simp [hnone]⟩
    intro g' hg'
    obtain rfl : g' = b.data := by simpa [Completion.fetched] using hg'
    exact ⟨_, Nat.le_refl _, b.cells_data⟩
  · refine ⟨by simp [hnone], hs.readers, by simp, hbytes, ?_, by simp [hnone]⟩
    intro h hh
    obtain ⟨hr, hw, -, hmin⟩ := hs.fetchWaits h hh
    have hlt : b.size < s.minimumToFetch :=
      hwait.resolve_left (by simp [show s.fetchHandler = _ from hh])
    exact ⟨hr, hw, hlt, by rw [hmax]; exact hmin⟩

/-- The reader gives its view back. -/
theorem consume (hs : s.Sound ws rs) (hg : g ∈ rs) (hstep : s.consume n = some (s', cs)) :
    s'.Sound (cs.filterMap Completion.prepared ++ ws)
      (cs.filterMap Completion.fetched ++ rs.erase g) := by
  obtain ⟨hnone, rfl⟩ := hs.of_reader hg
  obtain ⟨-, b, hb, hcase⟩ := consume_cases hstep
  obtain ⟨-, -, -, hwrite⟩ := CircularBuffer.consume_eq_some.1 hb
  have hsize := CircularBuffer.size_consume hb
  have hspace := b.toNat_space
  have hspace' := s.buffer.toNat_space
  have hmax : b.maxSize = s.buffer.maxSize := by
    rw [CircularBuffer.maxSize, CircularBuffer.maxSize, b.storage_length, s.buffer.storage_length]
  have hroom : ∀ g ∈ ws, ∃ m ≤ b.space.toNat,
      cells g = Ring.window (1 <<< k) b.writeHead.toNat m := by
    intro g' hg'
    obtain ⟨m, hm, hcells⟩ := hs.room g' hg'
    exact ⟨m, by omega, by rw [hwrite]; exact hcells⟩
  rw [List.erase_cons_head]
  rcases hcase with ⟨h, hp, hle, rfl, rfl⟩ | ⟨hwait, rfl, rfl⟩
  · obtain ⟨hw, rfl⟩ := hs.of_prepareHandler hp
    refine ⟨by simp [hw, Completion.prepared], by simp [hnone, Completion.fetched], ?_,
      by simp [Completion.fetched], by simp [hnone], by simp⟩
    intro g' hg'
    obtain rfl : g' = b.prepare := by simpa [Completion.prepared] using hg'
    exact ⟨_, Nat.le_refl _, b.cells_prepare⟩
  · refine ⟨hs.writers, by simp [hnone], hroom, by simp, by simp [hnone], ?_⟩
    intro h hh
    obtain ⟨hr, hw, -, hmin⟩ := hs.prepareWaits h hh
    have hlt : b.space < s.minimumToPrepare :=
      hwait.resolve_left (by simp [show s.prepareHandler = _ from hh])
    exact ⟨hr, hw, hlt, by rw [hmax]; exact hmin⟩

theorem closeForWrite (hs : s.Sound ws rs) (hstep : s.closeForWrite = (s', cs)) :
    s'.Sound (cs.filterMap Completion.prepared ++ ws) (cs.filterMap Completion.fetched ++ rs) := by
  cases hw : s.closedForWrite with
  | true =>
      rw [closeForWrite_of_closed hw] at hstep
      cases hstep
      exact hs
  | false =>
      rw [closeForWrite_of_open hw] at hstep
      cases hstep
      have hwriters : ws.length ≤ (s.writeInProgress && s.prepareHandler.isNone).toNat := by
        cases hp : s.prepareHandler with
        | none => simpa [hp] using hs.writers
        | some h => simp [(hs.of_prepareHandler hp).2]
      have hreaders : rs.length ≤ (s.readInProgress && s.fetchHandler.isNone).toNat := by
        cases hf : s.fetchHandler with
        | none => simpa [hf] using hs.readers
        | some h => simp [(hs.of_fetchHandler hf).2]
      have hnone : ∀ l l' : List H,
          (l.map (fun h => Completion.prepare h (.failure .shutDown)) ++
            l'.map fun h => Completion.fetch h (.failure .eof)).filterMap Completion.prepared = [] ∧
          (l.map (fun h => Completion.prepare h (.failure .shutDown)) ++
            l'.map fun h => Completion.fetch h (.failure .eof)).filterMap
              Completion.fetched = [] := by
        intro l l'
        simp [List.filterMap_append, List.filterMap_map, Function.comp_def, Completion.prepared,
          Completion.fetched]
      rw [(hnone _ _).1, (hnone _ _).2]
      exact ⟨by simpa using hwriters, by simpa using hreaders, hs.room, hs.bytes, by simp, by simp⟩

theorem closeForRead (hs : s.Sound ws rs) (hstep : s.closeForRead = (s', cs)) :
    s'.Sound (cs.filterMap Completion.prepared ++ ws) (cs.filterMap Completion.fetched ++ rs) := by
  cases hr : s.closedForRead with
  | true =>
      rw [closeForRead_of_closed hr] at hstep
      cases hstep
      exact hs
  | false =>
      rw [closeForRead_of_open hr] at hstep
      cases hstep
      have hwriters : ws.length ≤ s.writeInProgress.toNat :=
        (Nat.le_add_left _ _).trans hs.writers
      have hreaders : rs.length ≤ s.readInProgress.toNat :=
        (Nat.le_add_left _ _).trans hs.readers
      have hnone : ∀ l l' : List H,
          (l.map (fun h => Completion.fetch h (.failure .shutDown)) ++
            l'.map fun h => Completion.prepare h (.failure .brokenPipe)).filterMap
              Completion.prepared = [] ∧
          (l.map (fun h => Completion.fetch h (.failure .shutDown)) ++
            l'.map fun h => Completion.prepare h (.failure .brokenPipe)).filterMap
              Completion.fetched = [] := by
        intro l l'
        simp [List.filterMap_append, List.filterMap_map, Function.comp_def, Completion.prepared,
          Completion.fetched]
      rw [(hnone _ _).1, (hnone _ _).2]
      exact ⟨by simpa using hwriters, by simpa using hreaders, hs.room, hs.bytes, by simp, by simp⟩

theorem write (hs : s.Sound ws rs) (xs : List Buffer) (vs : List Byte) :
    ({ s with buffer := s.buffer.write xs vs } : AsyncCircularBufferStream k H).Sound ws rs where
  writers := hs.writers
  readers := hs.readers
  room g hg := by
    rw [CircularBuffer.write_space]
    exact hs.room g hg
  bytes := hs.bytes
  fetchWaits := by
    simp only [CircularBuffer.write_maxSize]
    exact hs.fetchWaits
  prepareWaits := by
    simp only [CircularBuffer.write_maxSize, CircularBuffer.write_space]
    exact hs.prepareWaits

/-! ### Views -/

theorem room_subset (hs : s.Sound ws rs) (hg : g ∈ ws) :
    cells g = (cells s.buffer.prepare).take (bufferSize g) := by
  obtain ⟨m, hm, hcells⟩ := hs.room g hg
  have hsize : bufferSize g = m := by rw [← length_cells, hcells, Ring.window_length]
  rw [s.buffer.cells_prepare, hsize, Ring.window_take hm, hcells]

theorem bytes_subset (hs : s.Sound ws rs) (hg : g ∈ rs) :
    cells g = (cells s.buffer.data).take (bufferSize g) := by
  obtain ⟨m, hm, hcells⟩ := hs.bytes g hg
  have hsize : bufferSize g = m := by rw [← length_cells, hcells, Ring.window_length]
  rw [s.buffer.cells_data, hsize, Ring.window_take hm, hcells]

/-- The writer and the reader have no byte of the storage in common. -/
theorem disjoint {w r : List Buffer} (hs : s.Sound ws rs) (hw : w ∈ ws) (hr : r ∈ rs) :
    List.Disjoint (cells w) (cells r) := by
  intro p hpw hpr
  rw [hs.room_subset hw] at hpw
  rw [hs.bytes_subset hr] at hpr
  exact s.buffer.disjoint_prepare_data (List.mem_of_mem_take hpw) (List.mem_of_mem_take hpr)

end Sound

end AsyncCircularBufferStream

/-! ### Sound sessions -/

private theorem filterMap_erase_perm {α β : Type} [BEq α] [LawfulBEq α] (f : α → Option β) {x : α}
    {l : List α} (h : x ∈ l) :
    ((f x).toList ++ (l.erase x).filterMap f).Perm (l.filterMap f) := by
  refine List.Perm.trans ?_ ((List.perm_cons_erase h).filterMap f).symm
  cases hx : f x <;> simp [hx]

private theorem append_erase_perm {α : Type} [BEq α] [LawfulBEq α] {x : α} {l l' : List α}
    (h : x ∈ l') :
    ((l ++ l').erase x).Perm (l ++ l'.erase x) := by
  refine (List.perm_cons x).1 ?_
  refine (List.perm_cons_erase (List.mem_append_right _ h)).symm.trans ?_
  refine ((List.perm_cons_erase h).append_left l).trans ?_
  exact List.perm_middle

namespace Session

variable {k : ℕ} {c c' : Session k} {a : Act}

theorem writeGranted_perm {l : List (Completion StreamCall)} {ws : List (List Buffer)} :
    (l.filterMap Completion.prepared ++ (c.pending.filterMap Completion.prepared ++ ws)).Perm
      ((c.pending ++ l).filterMap Completion.prepared ++ ws) := by
  rw [List.filterMap_append, ← List.append_assoc]
  exact List.perm_append_comm.append_right ws

theorem readGranted_perm {l : List (Completion StreamCall)} {rs : List (List Buffer)} :
    (l.filterMap Completion.fetched ++ (c.pending.filterMap Completion.fetched ++ rs)).Perm
      ((c.pending ++ l).filterMap Completion.fetched ++ rs) := by
  rw [List.filterMap_append, ← List.append_assoc]
  exact List.perm_append_comm.append_right rs

/-- Every step keeps the stream sound. -/
theorem step_sound (c : Session k) (a : Act) (c' : Session k)
    (hs : c.stream.Sound c.writeGranted c.readGranted) (h : c.step a = some c') :
    c'.stream.Sound c'.writeGranted c'.readGranted := by
  cases a with
  | asyncPrepare m =>
      cases h
      exact (hs.asyncPrepare rfl).perm writeGranted_perm readGranted_perm
  | asyncFetch m =>
      cases h
      exact (hs.asyncFetch rfl).perm writeGranted_perm readGranted_perm
  | closeForWrite =>
      cases h
      exact (hs.closeForWrite rfl).perm writeGranted_perm readGranted_perm
  | closeForRead =>
      cases h
      exact (hs.closeForRead rfl).perm writeGranted_perm readGranted_perm
  | commit g n =>
      obtain ⟨hg, ⟨s, cs⟩, hcommit, rfl⟩ := step_commit h
      have hsound := hs.commit (List.mem_append_right _ hg) hcommit
      refine hsound.perm ?_ readGranted_perm
      refine List.Perm.trans ?_ writeGranted_perm
      exact (append_erase_perm hg).append_left _
  | consume g n =>
      obtain ⟨hg, ⟨s, cs⟩, hconsume, rfl⟩ := step_consume h
      have hsound := hs.consume (List.mem_append_right _ hg) hconsume
      refine hsound.perm writeGranted_perm ?_
      refine List.Perm.trans ?_ readGranted_perm
      exact (append_erase_perm hg).append_left _
  | invoke x =>
      obtain ⟨hx, rfl⟩ := step_invoke h
      -- the view goes from the action to the party
      have hmove : ∀ (f : Completion StreamCall → Option (List Buffer)) (l : List (List Buffer)),
          (c.pending.filterMap f ++ l).Perm
            ((c.pending.erase x).filterMap f ++ (l ++ (f x).toList)) := by
        intro f l
        refine ((filterMap_erase_perm f hx).symm.append_right l).trans ?_
        refine List.perm_append_comm.trans ?_
        rw [← List.append_assoc]
        exact List.perm_append_comm
      exact hs.perm (hmove _ _) (hmove _ _)
  | store g xs vs =>
      obtain ⟨-, rfl⟩ := step_store h
      exact hs.write xs vs

theorem init_sound (hk : k ≤ 30) (f p : SizeT) :
    (init hk f p).stream.Sound (init hk f p).writeGranted (init hk f p).readGranted := by
  constructor <;> simp [init, writeGranted, readGranted, AsyncCircularBufferStream.ofSizeLog2]

/-- The stream of a session is sound. -/
theorem sound {hk : k ≤ 30} {f p : SizeT} (h : Run.Reachable step (init hk f p) c) :
    c.stream.Sound c.writeGranted c.readGranted :=
  h.invariant (I := fun c => c.stream.Sound c.writeGranted c.readGranted) step_sound
    (init_sound hk f p)

end Session

/-- Whoever waits, waits for bytes or room that there is not yet, on a side that can still be
served. -/
theorem no_lost_wakeup {k : ℕ} (hk : k ≤ 30) (f p : SizeT) (c : Session k)
    (h : Run.Reachable Session.step (.init hk f p) c) :
    (∀ r, c.stream.fetchHandler = some r → c.stream.readInProgress = true ∧
      c.stream.closedForRead = false ∧ c.stream.closedForWrite = false ∧
      c.stream.buffer.size.toNat < c.stream.minimumToFetch.toNat ∧
      c.stream.minimumToFetch.toNat ≤ 1 <<< k) ∧
    (∀ r, c.stream.prepareHandler = some r → c.stream.writeInProgress = true ∧
      c.stream.closedForRead = false ∧ c.stream.closedForWrite = false ∧
      c.stream.buffer.space.toNat < c.stream.minimumToPrepare.toNat ∧
      c.stream.minimumToPrepare.toNat ≤ 1 <<< k) := by
  have hs := Session.sound h
  rw [← c.stream.buffer.toNat_maxSize]
  constructor
  · intro r hr
    obtain ⟨hclosed, hclosed', hlt, hle⟩ := hs.fetchWaits r hr
    exact ⟨(hs.of_fetchHandler hr).1, hclosed, hclosed', BitVec.lt_def.1 hlt, BitVec.le_def.1 hle⟩
  · intro r hr
    obtain ⟨hclosed, hclosed', hlt, hle⟩ := hs.prepareWaits r hr
    exact ⟨(hs.of_prepareHandler hr).1, hclosed, hclosed', BitVec.lt_def.1 hlt, BitVec.le_def.1 hle⟩

/-- A fetch of one byte waits. -/
theorem no_lost_wakeup_waiting :
    ∃ c : Session 0, Run.run Session.step (.init (by decide) 0 0) [.asyncFetch 1] = some c ∧
      c.stream.buffer.size.toNat < c.stream.minimumToFetch.toNat := by
  refine ⟨_, rfl, ?_⟩
  exact ((no_lost_wakeup (by decide) 0 0 _ ⟨[.asyncFetch 1], rfl⟩).1 _ rfl).2.2.2.1

end Hittop
