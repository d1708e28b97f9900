/-
**The ring buffer** (`io/circular_buffer.h`).

The storage has a power of two of bytes, two counters run over it and wrap where `std::size_t` does,
and a mask brings them into the storage.  What is given out is not bytes but segments of the
storage, one or two of them.

Main definitions:

* `Hittop.SizeT`, `Hittop.Buffer` — `std::size_t`, and a segment;
* `Hittop.CircularBuffer` — the storage and the counters, with the bounds the constructor and the
  assertions keep;
* `Hittop.CircularBuffer.data`, `prepare`, `commit`, `consume` — the operations of the class;
* `Hittop.CircularBuffer.contents` — the bytes in the segments of `data`.

Main results:

* `Hittop.cells_getRange` — the segments are the window of the ring that starts at the counter;
* `Hittop.CircularBuffer.commit_eq_some`, `Hittop.CircularBuffer.consume_eq_some` — what the
  operations do to the counters.
-/

import Hittop.Names
import Hittop.Library.Ring

set_option relaxedAutoImplicit false
set_option autoImplicit false

namespace Hittop

/-- `std::size_t`. -/
abbrev SizeT := BitVec 64

/-- `boost::asio::buffer(&storage[offset], size)`. -/
structure Buffer where
  offset : SizeT
  size : SizeT
  deriving DecidableEq, Repr

namespace Buffer

/-- The indices of the bytes of a segment. -/
def cells (x : Buffer) : List ℕ := List.range' x.offset.toNat x.size.toNat

end Buffer

/-- The indices of the bytes of a buffer sequence, in order. -/
def cells (xs : List Buffer) : List ℕ := xs.flatMap Buffer.cells

/-- `boost::asio::buffer_size`. -/
def bufferSize (xs : List Buffer) : ℕ := (xs.map fun x => x.size.toNat).sum

/-- `CircularBuffer::GetRange`. -/
def getRange (offset count storageSize : SizeT) : List Buffer :=
  if offset + count ≤ storageSize then [⟨offset, count⟩]
  else [⟨offset, storageSize - offset⟩, ⟨0, offset + count - storageSize⟩]

/-- `CircularBuffer`, constructed with `size_log_2`.  `mask_` is never assigned, and is a function
of the storage here. -/
structure CircularBuffer (sizeLog2 : ℕ) where
  storage : List Byte
  readHead : SizeT
  writeHead : SizeT
  sizeLog2_le : sizeLog2 ≤ 30
  storage_length : storage.length = 1 <<< sizeLog2
  size_le : (writeHead - readHead).toNat ≤ storage.length
  deriving DecidableEq

namespace CircularBuffer

variable {k : ℕ}

/-- A buffer of `1 << size_log_2` bytes with both counters at `head`. -/
def start (storage : List Byte) (head : SizeT) (hk : k ≤ 30) (h : storage.length = 1 <<< k) :
    CircularBuffer k where
  storage := storage
  readHead := head
  writeHead := head
  sizeLog2_le := hk
  storage_length := h
  size_le := by simp

/-- The constructor. -/
def ofSizeLog2 (k : ℕ) (hk : k ≤ 30) : CircularBuffer k :=
  start (List.replicate (1 <<< k) 0) 0 hk List.length_replicate

def maxSize (b : CircularBuffer k) : SizeT := BitVec.ofNat 64 b.storage.length

def mask (b : CircularBuffer k) : SizeT := b.maxSize - 1

def size (b : CircularBuffer k) : SizeT := b.writeHead - b.readHead

def space (b : CircularBuffer k) : SizeT := b.maxSize - b.size

def empty (b : CircularBuffer k) : Bool := b.readHead == b.writeHead

def data (b : CircularBuffer k) : List Buffer := getRange (b.readHead &&& b.mask) b.size b.maxSize

def prepare (b : CircularBuffer k) : List Buffer :=
  getRange (b.writeHead &&& b.mask) b.space b.maxSize

/-- The bytes in the cells of some segments. -/
def read (b : CircularBuffer k) (xs : List Buffer) : List Byte := Ring.readAt 0 b.storage (cells xs)

/-- The bytes in the segments of `data`. -/
def contents (b : CircularBuffer k) : List Byte := b.read b.data

/-- Bytes are stored through segments that have been given out. -/
def write (b : CircularBuffer k) (xs : List Buffer) (vs : List Byte) : CircularBuffer k :=
  { b with
    storage := Ring.writeAt b.storage (cells xs) vs
    storage_length := by rw [Ring.writeAt_length, b.storage_length]
    size_le := by rw [Ring.writeAt_length]; exact b.size_le }

/-! ### Sizes -/

theorem pow_pos : 0 < 1 <<< k := by
  rw [Nat.one_shiftLeft]
  exact Nat.two_pow_pos k

theorem capacity_le (b : CircularBuffer k) : 1 <<< k ≤ 1073741824 := by
  rw [Nat.one_shiftLeft]
  exact Nat.pow_le_pow_right (by decide) b.sizeLog2_le

theorem capacity_dvd (b : CircularBuffer k) : 1 <<< k ∣ 18446744073709551616 := by
  rw [Nat.one_shiftLeft]
  exact Nat.pow_dvd_pow 2 (b.sizeLog2_le.trans (by decide) : k ≤ 64)

theorem toNat_maxSize (b : CircularBuffer k) : b.maxSize.toNat = 1 <<< k := by
  have h := b.capacity_le
  rw [maxSize, b.storage_length, BitVec.toNat_ofNat]
  exact Nat.mod_eq_of_lt (by omega)

theorem size_le_capacity (b : CircularBuffer k) : b.size.toNat ≤ 1 <<< k := by
  rw [← b.storage_length]
  exact b.size_le

theorem toNat_space (b : CircularBuffer k) : b.space.toNat = 1 <<< k - b.size.toNat := by
  have h := b.size_le_capacity
  rw [space, BitVec.toNat_sub_of_le, b.toNat_maxSize]
  rw [BitVec.le_def, b.toNat_maxSize]
  exact h

/-- The counters are apart by the size, going around. -/
theorem writeHead_eq (b : CircularBuffer k) : b.writeHead = b.readHead + b.size := by
  unfold size
  bv_omega

theorem toNat_and_mask (b : CircularBuffer k) (h : SizeT) :
    (h &&& b.mask).toNat = h.toNat % 1 <<< k := by
  have hmax := b.toNat_maxSize
  have hpos : 0 < 1 <<< k := pow_pos
  have hmask : b.mask.toNat = 1 <<< k - 1 := by
    rw [mask, BitVec.toNat_sub_of_le, hmax]
    · rfl
    · rw [BitVec.le_def, hmax]
      exact hpos
  rw [BitVec.toNat_and, hmask, Nat.one_shiftLeft, Nat.and_two_pow_sub_one_eq_mod]

/-- A sum of counters that has wrapped is at the same place of the ring. -/
theorem window_add_head (b : CircularBuffer k) (h n : SizeT) (m : ℕ) :
    Ring.window (1 <<< k) (h + n).toNat m = Ring.window (1 <<< k) (h.toNat + n.toNat) m := by
  refine Ring.window_congr ?_
  rw [BitVec.toNat_add]
  exact Nat.mod_mod_of_dvd _ b.capacity_dvd

end CircularBuffer

/-- The segments of `GetRange` at a masked counter are the window at the counter. -/
theorem cells_getRange {k : ℕ} (b : CircularBuffer k) (h n : SizeT) (hn : n.toNat ≤ 1 <<< k) :
    cells (getRange (h &&& b.mask) n b.maxSize) = Ring.window (1 <<< k) h.toNat n.toNat := by
  have hcap := b.capacity_le
  have hmax := b.toNat_maxSize
  have hoff := b.toNat_and_mask h
  have hlt : h.toNat % 1 <<< k < 1 <<< k := Nat.mod_lt _ CircularBuffer.pow_pos
  have hsum : ((h &&& b.mask) + n).toNat = h.toNat % 1 <<< k + n.toNat := by
    rw [BitVec.toNat_add, hoff]
    exact Nat.mod_eq_of_lt (by omega)
  rw [← Ring.window_mod]
  unfold getRange
  split
  · rename_i hle
    rw [BitVec.le_def, hsum, hmax] at hle
    rw [Ring.window_of_le hle]
    simp [cells, Buffer.cells, hoff]
  · rename_i hle
    rw [BitVec.le_def, hsum, hmax] at hle
    have hfirst : (b.maxSize - (h &&& b.mask)).toNat = 1 <<< k - h.toNat % 1 <<< k := by
      rw [BitVec.toNat_sub_of_le, hmax, hoff]
      rw [BitVec.le_def, hmax, hoff]
      omega
    have hsecond : ((h &&& b.mask) + n - b.maxSize).toNat =
        h.toNat % 1 <<< k + n.toNat - 1 <<< k := by
      rw [BitVec.toNat_sub_of_le, hsum, hmax]
      rw [BitVec.le_def, hsum, hmax]
      omega
    rw [Ring.window_of_lt (by omega) hn (by omega)]
    simp only [cells, Buffer.cells, List.flatMap_cons, List.flatMap_nil, List.append_nil, hoff,
      hfirst, hsecond]
    rfl

theorem length_cells (xs : List Buffer) : (cells xs).length = bufferSize xs := by
  simp [cells, bufferSize, Buffer.cells, List.length_flatMap]

namespace CircularBuffer

variable {k : ℕ} {b b' : CircularBuffer k} {n : SizeT}

/-! ### What is given out -/

theorem cells_data (b : CircularBuffer k) :
    cells b.data = Ring.window (1 <<< k) b.readHead.toNat b.size.toNat :=
  cells_getRange b _ _ b.size_le_capacity

theorem cells_prepare (b : CircularBuffer k) :
    cells b.prepare = Ring.window (1 <<< k) b.writeHead.toNat b.space.toNat :=
  cells_getRange b _ _ (by rw [b.toNat_space]; exact Nat.sub_le _ _)

/-- The room begins where the bytes end. -/
theorem cells_prepare_eq (b : CircularBuffer k) :
    cells b.prepare =
      Ring.window (1 <<< k) (b.readHead.toNat + b.size.toNat) (1 <<< k - b.size.toNat) := by
  rw [b.cells_prepare, b.toNat_space]
  conv_lhs => rw [b.writeHead_eq]
  exact b.window_add_head _ _ _

theorem contents_eq (b : CircularBuffer k) :
    b.contents = Ring.readAt 0 b.storage (Ring.window (1 <<< k) b.readHead.toNat b.size.toNat) := by
  rw [contents, read, b.cells_data]

@[simp] theorem contents_length (b : CircularBuffer k) : b.contents.length = b.size.toNat := by
  rw [b.contents_eq, Ring.readAt_length, Ring.window_length]

/-! ### The operations -/

private theorem toNat_size_commit (b : CircularBuffer k) (h : n ≤ b.space) :
    (b.writeHead + n - b.readHead).toNat = b.size.toNat + n.toNat := by
  have hsize := b.size_le_capacity
  have hspace := b.toNat_space
  have hcap := b.capacity_le
  rw [BitVec.le_def] at h
  have heq : b.writeHead + n - b.readHead = b.size + n := by
    unfold size
    bv_omega
  rw [heq, BitVec.toNat_add]
  exact Nat.mod_eq_of_lt (by omega)

private theorem toNat_size_consume (b : CircularBuffer k) (h : n ≤ b.size) :
    (b.writeHead - (b.readHead + n)).toNat = b.size.toNat - n.toNat := by
  have heq : b.writeHead - (b.readHead + n) = b.size - n := by
    unfold size
    bv_omega
  rw [heq, BitVec.toNat_sub_of_le h]

/-- `commit`; nothing where the assertion fails. -/
def commit (b : CircularBuffer k) (n : SizeT) : Option (CircularBuffer k) :=
  if h : n ≤ b.space then
    some { b with
      writeHead := b.writeHead + n
      size_le := by
        have hspace := b.toNat_space
        have hsize := b.size_le_capacity
        have hn := BitVec.le_def.1 h
        rw [toNat_size_commit b h, b.storage_length]
        omega }
  else none

/-- `consume`; nothing where the assertion fails. -/
def consume (b : CircularBuffer k) (n : SizeT) : Option (CircularBuffer k) :=
  if h : n ≤ b.size then
    some { b with
      readHead := b.readHead + n
      size_le := by
        rw [toNat_size_consume b h]
        exact Nat.le_trans (Nat.sub_le _ _) b.size_le }
  else none

theorem commit_eq_some : b.commit n = some b' ↔ n ≤ b.space ∧ b'.storage = b.storage ∧
    b'.readHead = b.readHead ∧ b'.writeHead = b.writeHead + n := by
  unfold commit
  split
  · rename_i h
    simp only [h, true_and, Option.some.injEq]
    cases b'
    simp [eq_comm]
  · rename_i h
    simp [h]

theorem consume_eq_some : b.consume n = some b' ↔ n ≤ b.size ∧ b'.storage = b.storage ∧
    b'.readHead = b.readHead + n ∧ b'.writeHead = b.writeHead := by
  unfold consume
  split
  · rename_i h
    simp only [h, true_and, Option.some.injEq]
    cases b'
    simp [eq_comm]
  · rename_i h
    simp [h]

theorem size_commit (h : b.commit n = some b') : b'.size.toNat = b.size.toNat + n.toNat := by
  obtain ⟨hn, -, hread, hwrite⟩ := commit_eq_some.1 h
  rw [size, hread, hwrite]
  exact toNat_size_commit b hn

theorem size_consume (h : b.consume n = some b') : b'.size.toNat = b.size.toNat - n.toNat := by
  obtain ⟨hn, -, hread, hwrite⟩ := consume_eq_some.1 h
  rw [size, hread, hwrite]
  exact toNat_size_consume b hn

/-- The bytes of the first cells of the room are put at the end. -/
theorem contents_commit (h : b.commit n = some b') :
    b'.contents = b.contents ++ (b.read b.prepare).take n.toNat := by
  obtain ⟨hn, hstorage, hread, -⟩ := commit_eq_some.1 h
  have hspace := b.toNat_space
  have hle := BitVec.le_def.1 hn
  rw [b'.contents_eq, size_commit h, hstorage, hread, Ring.window_add, Ring.readAt_append,
    ← b.contents_eq, read, b.cells_prepare_eq, Ring.readAt_take, Ring.window_take (by omega)]

/-- The first bytes are gone. -/
theorem contents_consume (h : b.consume n = some b') :
    b'.contents = b.contents.drop n.toNat := by
  obtain ⟨hn, hstorage, hread, -⟩ := consume_eq_some.1 h
  have hle := BitVec.le_def.1 hn
  rw [b'.contents_eq, size_consume h, hstorage, hread, b.window_add_head, b.contents_eq,
    Ring.readAt_drop, Ring.window_drop hle]

end CircularBuffer

end Hittop
