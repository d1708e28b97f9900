/-
**Windows of a ring.**

The cells of an array of `cap` cells are used in a circle: cell `start % cap` is the first one, and
after the last cell comes the first again.  A window is a number of cells in this order.  Windows
that follow one another have no cell in common as long as they do not go around, and a window is at
most two intervals of the array.

Main definitions:

* `Ring.window` — the cells of a window, in order;
* `Ring.readAt`, `Ring.writeAt` — reading and writing the cells of a list, in order.

Main results:

* `Ring.window_add`, `Ring.window_disjoint`, `Ring.window_nodup` — windows next to one another;
* `Ring.window_of_le`, `Ring.window_of_lt` — a window is one interval or two;
* `Ring.readAt_writeAt`, `Ring.readAt_writeAt_of_disjoint` — what has been written is read.
-/

import Mathlib.Data.List.Basic
import Mathlib.Data.List.Nodup
import Mathlib.Data.Nat.ModEq
import Mathlib.Tactic.Common

set_option relaxedAutoImplicit false
set_option autoImplicit false

namespace Ring

variable {β : Type} {cap start m n : ℕ}

/-! ### Windows -/

/-- The `n` cells from `start` on, in a ring of `cap` cells. -/
def window (cap start n : ℕ) : List ℕ := (List.range n).map fun i => (start + i) % cap

@[simp] theorem window_length : (window cap start n).length = n := by simp [window]

@[simp] theorem window_zero : window cap start 0 = [] := rfl

theorem mem_window {p : ℕ} : p ∈ window cap start n ↔ ∃ i < n, (start + i) % cap = p := by
  simp [window]

theorem lt_of_mem_window {p : ℕ} (hcap : 0 < cap) (h : p ∈ window cap start n) : p < cap := by
  obtain ⟨i, -, rfl⟩ := mem_window.1 h
  exact Nat.mod_lt _ hcap

/-- A window is a shorter window and the one that follows it. -/
theorem window_add : window cap start (m + n) = window cap start m ++ window cap (start + m) n := by
  simp [window, List.range_add, Function.comp_def, Nat.add_assoc]

theorem window_take (h : m ≤ n) : (window cap start n).take m = window cap start m := by
  obtain ⟨k, rfl⟩ := Nat.exists_eq_add_of_le h
  rw [window_add, List.take_left' window_length]

theorem window_drop (h : m ≤ n) :
    (window cap start n).drop m = window cap (start + m) (n - m) := by
  obtain ⟨k, rfl⟩ := Nat.exists_eq_add_of_le h
  rw [window_add, List.drop_left' window_length, Nat.add_sub_cancel_left]

/-- Only the cell that a window starts with matters. -/
theorem window_congr {start' : ℕ} (h : start % cap = start' % cap) :
    window cap start n = window cap start' n := by
  refine List.map_congr_left fun i _ => ?_
  rw [Nat.add_mod, h, ← Nat.add_mod]

theorem window_mod : window cap (start % cap) n = window cap start n :=
  window_congr (Nat.mod_mod _ _)

/-- Before the ring closes, no cell comes twice. -/
theorem window_nodup (h : n ≤ cap) : (window cap start n).Nodup := by
  refine List.Nodup.map_on ?_ List.nodup_range
  intro i hi j hj hij
  have hi := List.mem_range.1 hi
  have hj := List.mem_range.1 hj
  have hmod : Nat.ModEq cap i j := Nat.ModEq.add_left_cancel' start hij
  exact Nat.ModEq.eq_of_lt_of_lt hmod (by omega) (by omega)

theorem window_disjoint (h : m + n ≤ cap) :
    List.Disjoint (window cap start m) (window cap (start + m) n) := by
  have hnodup : (window cap start (m + n)).Nodup := window_nodup h
  rw [window_add] at hnodup
  exact List.disjoint_of_nodup_append hnodup

/-- A window that ends before the array does is one interval. -/
theorem window_of_le (h : start + n ≤ cap) : window cap start n = List.range' start n := by
  rw [List.range'_eq_map_range]
  refine List.map_congr_left fun i hi => ?_
  have hi := List.mem_range.1 hi
  exact Nat.mod_eq_of_lt (by omega)

/-- A window that goes over the end of the array is an interval at the end and one at the beginning.
-/
theorem window_of_lt (hstart : start ≤ cap) (hn : n ≤ cap) (h : cap < start + n) :
    window cap start n = List.range' start (cap - start) ++ List.range' 0 (start + n - cap) := by
  have hsplit : n = (cap - start) + (start + n - cap) := by omega
  have hend : start + (cap - start) = cap := by omega
  conv_lhs => rw [hsplit, window_add, hend]
  rw [window_of_le (by omega)]
  congr 1
  have hwrap : window cap cap (start + n - cap) = window cap 0 (start + n - cap) :=
    window_congr (by simp)
  rw [hwrap, window_of_le (by omega)]

/-! ### Reading and writing -/

/-- What the cells `ps` of `xs` hold; `d` where there is no cell. -/
def readAt (d : β) (xs : List β) (ps : List ℕ) : List β := ps.map fun p => xs.getD p d

/-- The values `vs` are stored in the cells `ps`, as long as there are both. -/
def writeAt (xs : List β) : List ℕ → List β → List β
  | [], _ => xs
  | _ :: _, [] => xs
  | p :: ps, v :: vs => writeAt (xs.set p v) ps vs

variable {d : β} {xs vs : List β} {ps qs : List ℕ}

@[simp] theorem readAt_length : (readAt d xs ps).length = ps.length := by simp [readAt]

@[simp] theorem readAt_nil : readAt d xs [] = [] := rfl

theorem readAt_append : readAt d xs (ps ++ qs) = readAt d xs ps ++ readAt d xs qs := by
  simp [readAt]

theorem readAt_take {k : ℕ} : (readAt d xs ps).take k = readAt d xs (ps.take k) :=
  (List.map_take ..).symm

theorem readAt_drop {k : ℕ} : (readAt d xs ps).drop k = readAt d xs (ps.drop k) :=
  (List.map_drop ..).symm

theorem readAt_set {p : ℕ} {v : β} (h : p ∉ ps) : readAt d (xs.set p v) ps = readAt d xs ps := by
  refine List.map_congr_left fun q hq => ?_
  have hne : p ≠ q := by
    rintro rfl
    exact h hq
  rw [List.getD_eq_getElem?_getD, List.getD_eq_getElem?_getD, List.getElem?_set_ne hne]

@[simp] theorem writeAt_length : (writeAt xs ps vs).length = xs.length := by
  induction ps generalizing xs vs with
  | nil => rw [writeAt]
  | cons p ps ih =>
      cases vs with
      | nil => rw [writeAt]
      | cons v vs => rw [writeAt, ih, List.length_set]

/-- Other cells are as before. -/
theorem readAt_writeAt_of_disjoint (h : List.Disjoint ps qs) :
    readAt d (writeAt xs ps vs) qs = readAt d xs qs := by
  induction ps generalizing xs vs with
  | nil => rw [writeAt]
  | cons p ps ih =>
      cases vs with
      | nil => rw [writeAt]
      | cons v vs =>
          have hp : p ∉ qs := fun hq => h List.mem_cons_self hq
          have hps : List.Disjoint ps qs := fun q hq => h (List.mem_cons_of_mem _ hq)
          rw [writeAt, ih hps, readAt_set hp]

/-- The values that have been written are read. -/
theorem readAt_writeAt (hps : ps.Nodup) (hlt : ∀ p ∈ ps, p < xs.length)
    (hlen : ps.length = vs.length) : readAt d (writeAt xs ps vs) ps = vs := by
  induction ps generalizing xs vs with
  | nil => exact (List.length_eq_zero_iff.1 hlen.symm).symm
  | cons p ps ih =>
      cases vs with
      | nil => simp at hlen
      | cons v vs =>
          obtain ⟨hp, hps⟩ := List.nodup_cons.1 hps
          have hdisj : List.Disjoint ps [p] := by
            intro q hq hqp
            rw [List.mem_singleton.1 hqp] at hq
            exact hp hq
          have hhead : readAt d (writeAt (xs.set p v) ps vs) [p] = [v] := by
            rw [readAt_writeAt_of_disjoint hdisj]
            simp [readAt, List.getD_eq_getElem?_getD, hlt p List.mem_cons_self]
          have htail : readAt d (writeAt (xs.set p v) ps vs) ps = vs := by
            refine ih hps (fun q hq => ?_) (by simpa using hlen)
            rw [List.length_set]
            exact hlt q (List.mem_cons_of_mem _ hq)
          rw [writeAt, ← List.singleton_append, readAt_append, hhead, htail, List.singleton_append]

/-- More cells than values: the first ones hold the values. -/
theorem readAt_writeAt_take (hps : ps.Nodup) (hlt : ∀ p ∈ ps, p < xs.length)
    (hlen : vs.length ≤ ps.length) :
    readAt d (writeAt xs ps vs) (ps.take vs.length) = vs := by
  have hshort : writeAt xs ps vs = writeAt xs (ps.take vs.length) vs := by
    clear hps hlt hlen
    induction ps generalizing xs vs with
    | nil => simp [writeAt]
    | cons p ps ih =>
        cases vs with
        | nil => simp [writeAt]
        | cons v vs => rw [List.length_cons, List.take_succ_cons, writeAt, writeAt, ih]
  rw [hshort]
  refine readAt_writeAt (hps.sublist (List.take_sublist _ _)) ?_ (by rw [List.length_take]; omega)
  intro p hp
  exact hlt p (List.mem_of_mem_take hp)

end Ring
