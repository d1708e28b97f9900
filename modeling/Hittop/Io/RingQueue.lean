/-
**The ring buffer is a bounded queue.**

The buffer is used by filling segments of `prepare` and committing the first bytes of them, and by
consuming bytes of `data`.  Whatever the counters are, and wherever they wrap, it is a queue of at
most as many bytes as the storage has.

Main definitions:

* `Hittop.BufferOp`, `Hittop.CircularBuffer.step` — the two uses, under the assertions;
* `Hittop.CircularBuffer.queue` — the bounded queue that a buffer is.

Main results:

* `Hittop.CircularBuffer.step_queue` — the uses are the operations of the queue;
* `Hittop.ring_refines_queue` — after any uses, the buffer holds what has been committed and not
  been consumed, and gives out the room that is left.
-/

import Hittop.Io.CircularBuffer
import Hittop.Library.BoundedQueue

set_option relaxedAutoImplicit false
set_option autoImplicit false

namespace Hittop

/-- One use of the buffer. -/
inductive BufferOp
  /-- The bytes `vs` are stored in the segments of `prepare()`, from the first one on; then
  `commit(n)`. -/
  | commit (vs : List Byte) (n : SizeT)
  /-- `consume(n)` -/
  | consume (n : SizeT)

namespace BufferOp

/-- What the use is to a queue. -/
def queueOp : BufferOp → BoundedQueue.Op Byte
  | commit vs n => .push (vs.take n.toNat)
  | consume n => .pop n.toNat

end BufferOp

/-- The bytes that `ops` commit, in order. -/
def committed (ops : List BufferOp) : List Byte := BoundedQueue.pushed (ops.map BufferOp.queueOp)

/-- How many bytes `ops` consume. -/
def consumed (ops : List BufferOp) : ℕ := BoundedQueue.popped (ops.map BufferOp.queueOp)

namespace CircularBuffer

variable {k : ℕ} {b b' : CircularBuffer k} {n : SizeT} {vs : List Byte}

/-- A use of the buffer: the bytes that are committed have been stored, and only into the segments
of `prepare`. -/
def step (b : CircularBuffer k) : BufferOp → Option (CircularBuffer k)
  | .commit vs n =>
      if n.toNat ≤ vs.length ∧ vs.length ≤ bufferSize b.prepare then
        (b.write b.prepare vs).commit n
      else none
  | .consume n => b.consume n

/-! ### What is given out -/

theorem bufferSize_prepare (b : CircularBuffer k) : bufferSize b.prepare = b.space.toNat := by
  rw [← length_cells, b.cells_prepare, Ring.window_length]

theorem lt_of_mem_prepare {p : ℕ} (h : p ∈ cells b.prepare) : p < b.storage.length := by
  rw [b.storage_length]
  rw [b.cells_prepare] at h
  exact Ring.lt_of_mem_window pow_pos h

theorem disjoint_prepare_data (b : CircularBuffer k) :
    List.Disjoint (cells b.prepare) (cells b.data) := by
  have hsize := b.size_le_capacity
  rw [b.cells_data, b.cells_prepare_eq]
  exact List.disjoint_symm (Ring.window_disjoint (by omega))

theorem nodup_prepare (b : CircularBuffer k) : (cells b.prepare).Nodup := by
  rw [b.cells_prepare, b.toNat_space]
  exact Ring.window_nodup (Nat.sub_le _ _)

/-! ### Storing bytes -/

@[simp] theorem write_size {xs : List Buffer} : (b.write xs vs).size = b.size := rfl

@[simp] theorem write_maxSize {xs : List Buffer} : (b.write xs vs).maxSize = b.maxSize := by
  rw [maxSize, storage_length, maxSize, storage_length]

@[simp] theorem write_space {xs : List Buffer} : (b.write xs vs).space = b.space := by
  rw [space, write_maxSize, write_size, space]

@[simp] theorem write_data {xs : List Buffer} : (b.write xs vs).data = b.data := by
  rw [data, mask, write_maxSize, write_size]
  rfl

@[simp] theorem write_prepare {xs : List Buffer} : (b.write xs vs).prepare = b.prepare := by
  rw [prepare, mask, write_maxSize, write_space]
  rfl

/-- Bytes that are stored elsewhere do not change the contents. -/
theorem contents_write {xs : List Buffer} (h : List.Disjoint (cells xs) (cells b.data)) :
    (b.write xs vs).contents = b.contents := by
  rw [contents, write_data]
  exact Ring.readAt_writeAt_of_disjoint h

/-- The bytes that have been stored are read. -/
theorem read_write_prepare (h : vs.length ≤ b.space.toNat) :
    ((b.write b.prepare vs).read b.prepare).take vs.length = vs := by
  rw [read, Ring.readAt_take]
  refine Ring.readAt_writeAt_take b.nodup_prepare (fun p hp => lt_of_mem_prepare hp) ?_
  rw [length_cells, b.bufferSize_prepare]
  exact h

/-- The first bytes stored in the room are the next bytes of the queue. -/
theorem contents_write_commit (hn : n.toNat ≤ vs.length) (hvs : vs.length ≤ b.space.toNat)
    (h : (b.write b.prepare vs).commit n = some b') :
    b'.contents = b.contents ++ vs.take n.toNat := by
  have hstored := read_write_prepare hvs
  have hdisj := b.disjoint_prepare_data
  have hfirst : ((b.write b.prepare vs).read b.prepare).take n.toNat = vs.take n.toNat := by
    conv_rhs => rw [← hstored]
    rw [List.take_take, Nat.min_eq_left hn]
  rw [contents_commit h, contents_write hdisj, write_prepare, hfirst]

/-! ### The queue -/

/-- The bounded queue that a buffer is. -/
def queue (b : CircularBuffer k) : BoundedQueue Byte (1 <<< k) where
  items := b.contents
  length_le := by
    rw [b.contents_length]
    exact b.size_le_capacity

/-- Committing and consuming bytes is what it is to a queue. -/
theorem step_queue (b : CircularBuffer k) (op : BufferOp) (b' : CircularBuffer k)
    (h : b.step op = some b') : b.queue.step op.queueOp = some b'.queue := by
  cases op with
  | commit vs n =>
      rw [step] at h
      split at h
      · rename_i hlen
        obtain ⟨hn, hvs⟩ := hlen
        rw [b.bufferSize_prepare] at hvs
        have hcontents := contents_write_commit hn hvs h
        refine BoundedQueue.push_eq_some.2 ⟨?_, hcontents⟩
        have hspace := b.toNat_space
        have hsize := b.size_le_capacity
        simp only [queue, contents_length, List.length_take]
        omega
      · simp at h
  | consume n =>
      obtain ⟨hn, -⟩ := consume_eq_some.1 h
      refine BoundedQueue.pop_eq_some.2 ⟨?_, contents_consume h⟩
      simp only [queue, contents_length]
      exact BitVec.le_def.1 hn

/-- The assertion of `commit` holds as long as there is room. -/
theorem exists_commit (hn : n.toNat ≤ vs.length) (hvs : vs.length ≤ b.space.toNat) :
    ∃ b', (b.write b.prepare vs).commit n = some b' := by
  have hle : n ≤ (b.write b.prepare vs).space := by
    rw [write_space, BitVec.le_def]
    exact hn.trans hvs
  unfold commit
  rw [dif_pos hle]
  exact ⟨_, rfl⟩

end CircularBuffer

/-- After any uses of a buffer whose counters start anywhere, the buffer holds the bytes committed
and not consumed; what `prepare` gives out is the rest of the storage, and the bytes stored there
are the next ones. -/
theorem ring_refines_queue {k : ℕ} (hk : k ≤ 30) (storage : List Byte)
    (hstorage : storage.length = 1 <<< k) (head : SizeT) (ops : List BufferOp)
    (b : CircularBuffer k)
    (hrun : Run.run CircularBuffer.step (.start storage head hk hstorage) ops = some b) :
    b.size.toNat = (committed ops).length - consumed ops ∧
    consumed ops ≤ (committed ops).length ∧
    b.size.toNat ≤ 1 <<< k ∧
    b.read b.data = (committed ops).drop (consumed ops) ∧
    bufferSize b.prepare = b.space.toNat ∧
    b.space.toNat = 1 <<< k - b.size.toNat ∧
    (∀ p ∈ cells b.prepare, p < 1 <<< k) ∧
    List.Disjoint (cells b.prepare) (cells b.data) ∧
    ∀ vs n, n.toNat ≤ vs.length → vs.length ≤ b.space.toNat →
      ∃ b', (b.write b.prepare vs).commit n = some b' ∧
        b'.read b'.data = b.read b.data ++ vs.take n.toNat := by
  have hqueue := Run.run_refines CircularBuffer.step_queue hrun
  obtain ⟨hle, hitems⟩ := BoundedQueue.run_items hqueue
  have hstart : (CircularBuffer.start storage head hk hstorage).queue.items = [] := by
    refine List.length_eq_zero_iff.1 ?_
    simp [CircularBuffer.queue, CircularBuffer.size, CircularBuffer.start]
  rw [hstart, List.nil_append] at hle hitems
  have hcontents : b.contents = (committed ops).drop (consumed ops) := hitems
  have hsize : b.size.toNat = (committed ops).length - consumed ops := by
    rw [← b.contents_length, hcontents, List.length_drop]
  refine ⟨hsize, hle, b.size_le_capacity, hcontents, b.bufferSize_prepare, b.toNat_space, ?_,
    b.disjoint_prepare_data, ?_⟩
  · intro p hp
    rw [← b.storage_length]
    exact CircularBuffer.lt_of_mem_prepare hp
  · intro vs n hn hvs
    obtain ⟨b', h⟩ := CircularBuffer.exists_commit hn hvs
    exact ⟨b', h, CircularBuffer.contents_write_commit hn hvs h⟩

/-- Two bytes of storage and counters that are about to wrap. -/
theorem ring_refines_queue_wrap :
    ∃ b, Run.run CircularBuffer.step
        (.start (k := 1) [0, 0] 18446744073709551615 (by decide) rfl)
        [.commit [1, 2] 2, .consume 1, .commit [3] 1] = some b ∧ b.read b.data = [2, 3] := by
  obtain ⟨b, hrun⟩ : ∃ b, Run.run CircularBuffer.step
      (.start (k := 1) [0, 0] 18446744073709551615 (by decide) rfl)
      [.commit [1, 2] 2, .consume 1, .commit [3] 1] = some b := by
    rw [← Option.isSome_iff_exists]
    decide +kernel
  have hdata := (ring_refines_queue (by decide) [0, 0] rfl 18446744073709551615 _ b hrun).2.2.2.1
  exact ⟨b, hrun, hdata.trans (by decide +kernel)⟩

end Hittop
