/-
**The queue is first in, first out** under the discipline that its header asks for: pushes come one
after the other, and there is one pop at a time.

A cancellation may come between a push that has taken a consumer and its flag, and another pop may
register before the push comes back to the mutex.  What keeps the order is that no item is in the
inventory while a handler can still be called by a push, and that a consumer which can be called is
in the queue or in the hands of the one push there is.

Main definitions:

* `Hittop.AsyncQueue.Disciplined` — the discipline;
* `Hittop.AsyncQueue.Ordered` — the items received, on their way to a handler, stored and held by
  the push are the items pushed, in this order.

Main results:

* `Hittop.AsyncQueue.lone_handler`, `Hittop.AsyncQueue.lone_insert` — one pop and one push at a
  time;
* `Hittop.AsyncQueue.step_order`, `step_known`, `step_direct` — what a step does to the order;
* `Hittop.queue_is_fifo` — items are received in the order of the pushes.
-/

import Hittop.Concurrent.Matching

set_option relaxedAutoImplicit false
set_option autoImplicit false

namespace Hittop.AsyncQueue

variable {T : Type}

namespace Call

/-- A call of `push` or `emplace`. -/
def isInsert : Call T → Bool
  | insert _ => true
  | dispatch _ _ => true
  | consume _ _ => true
  | finished .inserted => true
  | _ => false

/-- The item that a call of `push` or `emplace` has yet to hand over. -/
def inserting : Call T → List (Item T)
  | insert op => [op.item]
  | dispatch op _ => [op.item]
  | consume op _ => [op.item]
  | _ => []

/-- The item that a call of `async_pop` has yet to hand over. -/
def delivering : Call T → List (Item T)
  | deliver _ item => [item]
  | _ => []

theorem inserting_of_not_isInsert {x : Call T} (h : x.isInsert = false) : x.inserting = [] := by
  cases x <;> simp_all [isInsert, inserting]

theorem delivering_of_handlers {x : Call T} (h : x.handlers = []) : x.delivering = [] := by
  cases x <;> simp_all [handlers, delivering]

end Call

/-- A push begins when no other push is under way, and a pop begins when the handlers of all earlier
ones have been called. -/
def Disciplined (c : State T) : Act T → Prop
  | .push _ => ∀ x ∈ c.calls, x.isInsert = false
  | .emplace _ => ∀ x ∈ c.calls, x.isInsert = false
  | .asyncPop => ∀ h < c.pops, h ∈ c.invoked.map Invocation.handler
  | _ => True

instance (c : State T) (a : Act T) : Decidable (Disciplined c a) :=
  match a with
  | .push _ => inferInstanceAs (Decidable (∀ x ∈ c.calls, x.isInsert = false))
  | .emplace _ => inferInstanceAs (Decidable (∀ x ∈ c.calls, x.isInsert = false))
  | .asyncPop => inferInstanceAs (Decidable (∀ h < c.pops, h ∈ c.invoked.map Invocation.handler))
  | .callCanceler _ => .isTrue trivial
  | .advance _ => .isTrue trivial

variable [DecidableEq T]

structure Ordered (c : State T) : Prop where
  accounted : Accounted c
  /-- One push at a time. -/
  inserts : (c.calls.flatMap Call.inserting).length ≤ 1
  /-- One pop at a time. -/
  pending : ∀ h h', h < c.pops → h' < c.pops → h ∉ c.invoked.map Invocation.handler →
    h' ∉ c.invoked.map Invocation.handler → h = h'
  order : c.pushed = c.received ++ c.calls.flatMap Call.delivering ++ c.inventory ++
    c.calls.flatMap Call.inserting
  /-- A consumer that can be called is in the queue or in the hands of a push. -/
  known : ∀ h, c.active h = true → h ∈ c.consumers ∨ ∃ op, .dispatch op h ∈ c.calls
  /-- While a push can call a handler, no item is stored. -/
  direct : ∀ h, (c.active h = true ∨ ∃ op, .consume op h ∈ c.calls) → c.inventory = []

variable {c c' : State T} {x : Call T}

/-! ### One push and one pop at a time -/

theorem lone_insert (ho : Ordered c) (hx : x ∈ c.calls) {i : Item T} (hi : x.inserting = [i]) :
    c.calls.flatMap Call.inserting = [i] ∧ ∀ y ∈ c.calls, y.inserting ≠ [] → y = x := by
  obtain ⟨hall, hrest⟩ := Pool.flatMap_eq_of_length_le hx ho.inserts (by simp [hi])
  refine ⟨by rw [hall, hi], fun y hy hne => ?_⟩
  by_contra hyx
  have hy' : y ∈ c.calls.erase x := (List.mem_erase_of_ne hyx).2 hy
  exact hne (List.flatMap_eq_nil_iff.1 hrest y hy')

/-- A handler that a call is to invoke or to register has not been called. -/
theorem pending_of_handlers (hc : Matched c) {h : ℕ} (hx : x ∈ c.calls) (hh : h ∈ x.handlers) :
    h < c.pops ∧ h ∉ c.invoked.map Invocation.handler := by
  have hone := hc.handlers h
  have hpos : 0 < (c.calls.flatMap Call.handlers).count h :=
    List.count_pos_iff.2 (List.mem_flatMap.2 ⟨x, hx, hh⟩)
  refine ⟨?_, fun hi => ?_⟩
  · by_contra hlt
    rw [if_neg hlt] at hone
    omega
  · have hi := List.count_pos_iff.2 hi
    split at hone <;> omega

theorem pending_of_active (hc : Matched c) {h : ℕ} (hactive : c.active h = true) :
    h < c.pops ∧ h ∉ c.invoked.map Invocation.handler := by
  have hone := hc.handlers h
  rw [hactive, Bool.toNat_true] at hone
  refine ⟨?_, fun hi => ?_⟩
  · by_contra hlt
    rw [if_neg hlt] at hone
    omega
  · have hi := List.count_pos_iff.2 hi
    split at hone <;> omega

/-- While a call is to invoke or to register a handler, no consumer can be called and no other call
is about to invoke a handler. -/
theorem lone_handler (ho : Ordered c) {h : ℕ} (hx : x ∈ c.calls) (hh : h ∈ x.handlers) :
    (∀ k, c.active k = false) ∧ ∀ y ∈ c.calls.erase x, y.handlers = [] := by
  have hm := ho.accounted.matched
  obtain ⟨hlt, hnot⟩ := pending_of_handlers hm hx hh
  obtain ⟨hinactive, hunique⟩ := handlers_unique hm hx hh
  constructor
  · intro k
    cases hk : c.active k with
    | false => rfl
    | true =>
        obtain ⟨hklt, hknot⟩ := pending_of_active hm hk
        obtain rfl := ho.pending k h hklt hlt hknot hnot
        simp [hinactive] at hk
  · intro y hy
    refine List.eq_nil_iff_forall_not_mem.2 fun k hk => ?_
    obtain ⟨hklt, hknot⟩ := pending_of_handlers hm (List.mem_of_mem_erase hy) hk
    obtain rfl := ho.pending k h hklt hlt hknot hnot
    exact hunique y hy hk

/-- No other item is on its way from the inventory. -/
theorem lone_delivering (ho : Ordered c) {h : ℕ} (hx : x ∈ c.calls) (hh : h ∈ x.handlers) :
    (c.calls.erase x).flatMap Call.delivering = [] ∧
      c.calls.flatMap Call.delivering = x.delivering := by
  have hrest : (c.calls.erase x).flatMap Call.delivering = [] := by
    refine List.flatMap_eq_nil_iff.2 fun y hy => ?_
    exact Call.delivering_of_handlers ((lone_handler ho hx hh).2 y hy)
  refine ⟨hrest, ?_⟩
  have hperm := Pool.flatMap_perm Call.delivering hx
  rw [hrest, List.append_nil] at hperm
  have hlen : x.delivering.length ≤ 1 := by cases x <;> simp [Call.delivering]
  match hd : x.delivering, hlen with
  | [], _ =>
      rw [hd] at hperm
      exact hperm.eq_nil
  | [i], _ =>
      rw [hd] at hperm
      exact List.perm_singleton.1 hperm

/-! ### The order -/

/-- A call that has no item goes on. -/
theorem order_idle (ho : Ordered c) {ys : List (Call T)} (hxd : x.delivering = [])
    (hxi : x.inserting = []) (hyd : ys.flatMap Call.delivering = [])
    (hyi : ys.flatMap Call.inserting = []) :
    c.pushed = c.received ++ (Pool.replace c.calls x ys).flatMap Call.delivering ++ c.inventory ++
      (Pool.replace c.calls x ys).flatMap Call.inserting := by
  rw [Pool.flatMap_replace_nil hxd hyd, Pool.flatMap_replace_nil hxi hyi]
  exact ho.order

/-- A push goes on. -/
theorem replace_push (ho : Ordered c) {y : Call T} {i : Item T} (hx : x ∈ c.calls)
    (hxi : x.inserting = [i]) (hxd : x.delivering = []) (hyd : y.delivering = []) :
    (Pool.replace c.calls x [y]).flatMap Call.delivering = c.calls.flatMap Call.delivering ∧
      (Pool.replace c.calls x [y]).flatMap Call.inserting = y.inserting ∧
      c.calls.flatMap Call.inserting = [i] := by
  refine ⟨Pool.flatMap_replace_nil hxd (by rw [List.flatMap_singleton, hyd]), ?_,
    (lone_insert ho hx hxi).1⟩
  rw [Pool.flatMap_replace_of_length_le hx ho.inserts (by simp [hxi]), List.flatMap_singleton]

/-- A push goes on with its item. -/
theorem order_push (ho : Ordered c) {y : Call T} {i : Item T} (hx : x ∈ c.calls)
    (hxi : x.inserting = [i]) (hyi : y.inserting = [i]) (hxd : x.delivering = [])
    (hyd : y.delivering = []) :
    c.pushed = c.received ++ (Pool.replace c.calls x [y]).flatMap Call.delivering ++ c.inventory ++
      (Pool.replace c.calls x [y]).flatMap Call.inserting := by
  obtain ⟨hd, hi, hone⟩ := replace_push ho hx hxi hxd hyd
  rw [hd, hi, hyi, ← hone]
  exact ho.order

theorem step_order (ho : Ordered c) (h : Step c c') :
    c'.pushed = c'.received ++ c'.calls.flatMap Call.delivering ++ c'.inventory ++
      c'.calls.flatMap Call.inserting := by
  have horder := ho.order
  cases h with
  | store op hx hnil =>
      obtain ⟨hd, hi, hone⟩ := replace_push (y := .finished .inserted) ho hx rfl rfl rfl
      simp only [hd, hi, Call.inserting]
      rw [horder, hone, List.append_nil, ← List.append_assoc]
      rfl
  | take_consumer op consumer consumers hx hcons => exact order_push ho hx rfl rfl rfl rfl
  | claim op consumer hx hactive => exact order_push ho hx rfl (by simp [Call.inserting]) rfl rfl
  | miss op consumer hx hactive => exact order_push ho hx rfl (by simp [Call.inserting]) rfl rfl
  | consume op consumer handler hx hf =>
      obtain ⟨hd, hi, hone⟩ := replace_push (y := .finished .inserted) ho hx rfl rfl rfl
      -- the item is handed over past the inventory, which is empty
      have hinventory := ho.direct consumer (.inr ⟨op, hx⟩)
      have hdelivering := (lone_delivering ho hx (List.mem_singleton_self consumer)).2
      simp only [State.received, received_append_item, hd, hi, Call.inserting]
      rw [horder, hone, hinventory, hdelivering]
      simp [Call.delivering, State.received]
  | take_item handler item inventory hx hcons =>
      obtain ⟨-, hdelivering⟩ := lone_delivering ho hx (List.mem_singleton_self handler)
      have hi : (Pool.replace c.calls (.pop handler) [.deliver handler item]).flatMap
          Call.inserting = c.calls.flatMap Call.inserting := Pool.flatMap_replace_nil rfl rfl
      have hd : (Pool.replace c.calls (.pop handler) [.deliver handler item]).flatMap
          Call.delivering = [item] := by
        rw [Pool.flatMap_replace rfl, hdelivering]
        rfl
      simp only [hd, hi]
      rw [horder, hdelivering, hcons]
      simp [Call.delivering, State.received]
  | wait handler hx hnil => exact order_idle ho rfl rfl rfl rfl
  | deliver handler item hx =>
      obtain ⟨hrest, hdelivering⟩ := lone_delivering ho hx (List.mem_singleton_self handler)
      have hi : (Pool.replace c.calls (.deliver handler item)
          [.finished (.canceler none)]).flatMap Call.inserting =
            c.calls.flatMap Call.inserting := Pool.flatMap_replace_nil rfl rfl
      have hd : (Pool.replace c.calls (.deliver handler item)
          [.finished (.canceler none)]).flatMap Call.delivering = [] := by
        rw [Pool.replace, List.flatMap_append, hrest]
        rfl
      simp only [State.received, received_append_item, hd, hi]
      rw [horder, hdelivering]
      simp [Call.delivering, State.received]
  | claim_abort id consumer hx hactive => exact order_idle ho rfl rfl rfl rfl
  | miss_abort id consumer hx hactive => exact order_idle ho rfl rfl rfl rfl
  | abort id consumer handler hx hf =>
      simp only [State.received, received_append_aborted]
      exact order_idle ho rfl rfl rfl rfl
  | finish result hx => exact order_idle ho rfl rfl rfl rfl

/-! ### Consumers that can be called -/

/-- A push that has taken a consumer goes on having it, as long as another call takes a step. -/
theorem dispatch_replace {op : InsertOp T} {h : ℕ} {ys : List (Call T)}
    (hop : .dispatch op h ∈ c.calls) (hne : .dispatch op h ≠ x) :
    ∃ op, .dispatch op h ∈ Pool.replace c.calls x ys :=
  ⟨op, Pool.mem_replace_of_ne hop hne⟩

theorem step_known
    (hknown : ∀ h, c.active h = true → h ∈ c.consumers ∨ ∃ op, .dispatch op h ∈ c.calls)
    (h : Step c c') (k : ℕ) (hk : c'.active k = true) :
    k ∈ c'.consumers ∨ ∃ op, .dispatch op k ∈ c'.calls := by
  -- a call that has not taken a consumer
  have hkeep : ∀ (x : Call T) (ys : List (Call T)), (∀ op consumer, x ≠ .dispatch op consumer) →
      c.active k = true → k ∈ c.consumers ∨ ∃ op, .dispatch op k ∈ Pool.replace c.calls x ys := by
    intro x ys hx hk
    refine (hknown k hk).imp_right ?_
    rintro ⟨op, hop⟩
    exact dispatch_replace hop fun heq => hx op k heq.symm
  cases h with
  | store op hx hnil => exact hkeep _ _ (by simp) hk
  | take_consumer op consumer consumers hx hcons =>
      rcases hknown k hk with hmem | ⟨op', hop'⟩
      · rw [hcons] at hmem
        rcases List.mem_cons.1 hmem with rfl | hmem
        · exact .inr ⟨op, Pool.mem_replace_of_mem_right List.mem_cons_self⟩
        · exact .inl hmem
      · exact .inr (dispatch_replace hop' (by simp))
  | claim op consumer hx hactive =>
      have hne : k ≠ consumer := by
        rintro rfl
        simp at hk
      simp only [Function.update_of_ne hne] at hk
      refine (hknown k hk).imp_right ?_
      rintro ⟨op', hop'⟩
      exact dispatch_replace hop' (by simp [hne])
  | miss op consumer hx hactive =>
      have hne : k ≠ consumer := by
        rintro rfl
        rw [hactive] at hk
        simp at hk
      refine (hknown k hk).imp_right ?_
      rintro ⟨op', hop'⟩
      exact dispatch_replace hop' (by simp [hne])
  | consume op consumer handler hx hf => exact hkeep _ _ (by simp) hk
  | take_item handler item inventory hx hcons => exact hkeep _ _ (by simp) hk
  | wait handler hx hnil =>
      rcases eq_or_ne k handler with rfl | hne
      · exact .inl (List.mem_append_right _ (List.mem_singleton_self k))
      · simp only [Function.update_of_ne hne] at hk
        exact (hkeep _ _ (by simp) hk).imp_left (List.mem_append_left _)
  | deliver handler item hx => exact hkeep _ _ (by simp) hk
  | claim_abort id consumer hx hactive =>
      have hne : k ≠ consumer := by
        rintro rfl
        simp at hk
      simp only [Function.update_of_ne hne] at hk
      exact hkeep _ _ (by simp) hk
  | miss_abort id consumer hx hactive => exact hkeep _ _ (by simp) hk
  | abort id consumer handler hx hf => exact hkeep _ _ (by simp) hk
  | finish result hx => exact hkeep _ _ (by simp) hk

theorem step_direct (ho : Ordered c) (h : Step c c') (k : ℕ)
    (hk : c'.active k = true ∨ ∃ op, .consume op k ∈ c'.calls) : c'.inventory = [] := by
  -- what can be called afterwards could be called before
  have hold : ∀ (x : Call T) (ys : List (Call T)), (∀ op, .consume op k ∉ ys) →
      (c.active k = true ∨ ∃ op, .consume op k ∈ Pool.replace c.calls x ys) → c.inventory = [] := by
    rintro x ys hys (hk | ⟨op, hop⟩)
    · exact ho.direct k (.inl hk)
    · exact ho.direct k (.inr ⟨op, (Pool.mem_or_of_mem_replace hop).resolve_right (hys op)⟩)
  cases h with
  | store op hx hnil =>
      -- the push that stores its item is the only one, and it has taken no consumer
      obtain ⟨-, hlone⟩ := lone_insert ho hx rfl
      exfalso
      rcases hk with hk | ⟨op', hop'⟩
      · rcases ho.known k hk with hmem | ⟨op', hop'⟩
        · simp [hnil] at hmem
        · exact absurd (hlone _ hop' (by simp [Call.inserting])) (by simp)
      · have hop' := (Pool.mem_or_of_mem_replace hop').resolve_right (by simp)
        exact absurd (hlone _ hop' (by simp [Call.inserting])) (by simp)
  | take_consumer op consumer consumers hx hcons => exact hold _ _ (by simp) hk
  | claim op consumer hx hactive => exact ho.direct consumer (.inl hactive)
  | miss op consumer hx hactive => exact hold _ _ (by simp) hk
  | consume op consumer handler hx hf => exact hold _ _ (by simp) hk
  | take_item handler item inventory hx hcons =>
      have hnil := hold _ _ (by simp) hk
      rw [hcons] at hnil
      simp at hnil
  | wait handler hx hnil => exact hnil
  | deliver handler item hx => exact hold _ _ (by simp) hk
  | claim_abort id consumer hx hactive => exact ho.direct consumer (.inl hactive)
  | miss_abort id consumer hx hactive => exact hold _ _ (by simp) hk
  | abort id consumer handler hx hf => exact hold _ _ (by simp) hk
  | finish result hx => exact hold _ _ (by simp) hk

/-! ### Steps -/

theorem step_inserts (ho : Ordered c) (h : Step c c') :
    (c'.calls.flatMap Call.inserting).length ≤ 1 := by
  have hle : ∀ (x : Call T) (ys : List (Call T)), x ∈ c.calls →
      (ys.flatMap Call.inserting).length ≤ x.inserting.length →
      ((Pool.replace c.calls x ys).flatMap Call.inserting).length ≤ 1 := by
    intro x ys hx hys
    have hperm := (Pool.flatMap_perm Call.inserting hx).length_eq
    have hone := ho.inserts
    rw [List.length_append] at hperm
    rw [Pool.replace, List.flatMap_append, List.length_append]
    omega
  cases h <;> exact hle _ _ (by assumption) (by simp [Call.inserting])

/-- A step only adds to the handlers that have been invoked. -/
theorem step_invoked (h : Step c c') : c'.pops = c.pops ∧ c.invoked ⊆ c'.invoked := by
  cases h <;> exact ⟨rfl, by simp⟩

theorem advance_ordered (ho : Ordered c) (h : Step c c') : Ordered c' where
  accounted := advance_accounted ho.accounted h
  inserts := step_inserts ho h
  pending := by
    obtain ⟨hpops, hinvoked⟩ := step_invoked h
    intro k k' hk hk' hn hn'
    rw [hpops] at hk hk'
    exact ho.pending k k' hk hk' (fun hm => hn (List.map_subset _ hinvoked hm))
      fun hm => hn' (List.map_subset _ hinvoked hm)
  order := step_order ho h
  known := step_known ho.known h
  direct := step_direct ho h

theorem beginInsert_ordered (ho : Ordered c) (op : InsertOp T)
    (hop : op.item.call = c.pushed.length) (hd : ∀ x ∈ c.calls, x.isInsert = false) :
    Ordered (beginInsert c op) := by
  have hnil : c.calls.flatMap Call.inserting = [] :=
    List.flatMap_eq_nil_iff.2 fun x hx => Call.inserting_of_not_isInsert (hd x hx)
  have hmem : ∀ y ∈ c.calls ++ [.insert op], y ∈ c.calls ∨ y = .insert op := by
    intro y hy
    simpa using hy
  refine ⟨beginInsert_accounted ho.accounted op hop, ?_, ho.pending, ?_, ?_, ?_⟩
  · simp only [beginInsert, List.flatMap_append, hnil]
    simp [Call.inserting]
  · simp only [beginInsert, State.received, List.flatMap_append, hnil]
    rw [ho.order, hnil]
    simp [State.received, Call.delivering, Call.inserting]
  · intro k hk
    refine (ho.known k hk).imp_right ?_
    rintro ⟨op', hop'⟩
    exact ⟨op', List.mem_append_left _ hop'⟩
  · intro k hk
    refine ho.direct k (hk.imp_right ?_)
    rintro ⟨op', hop'⟩
    exact ⟨op', (hmem _ hop').resolve_right (by simp)⟩

/-- A call begins that is not a push. -/
theorem begin_ordered (ho : Ordered c) {x : Call T} (hc' : Accounted c')
    (hcalls : c'.calls = c.calls ++ [x]) (hx : x.isInsert = false) (hx' : x.delivering = [])
    (hpending : ∀ h h', h < c'.pops → h' < c'.pops → h ∉ c'.invoked.map Invocation.handler →
      h' ∉ c'.invoked.map Invocation.handler → h = h')
    (hpushed : c'.pushed = c.pushed) (hinvoked : c'.invoked = c.invoked)
    (hinventory : c'.inventory = c.inventory) (hconsumers : c'.consumers = c.consumers)
    (hactive : c'.active = c.active) : Ordered c' := by
  have hinserting := Call.inserting_of_not_isInsert hx
  have hmem : ∀ y ∈ c.calls ++ [x], y ∈ c.calls ∨ y = x := by
    intro y hy
    simpa using hy
  refine ⟨hc', ?_, hpending, ?_, ?_, ?_⟩
  · rw [hcalls, List.flatMap_append, List.flatMap_singleton, hinserting, List.append_nil]
    exact ho.inserts
  · rw [hpushed, State.received, hinvoked, hinventory, hcalls, List.flatMap_append,
      List.flatMap_append, List.flatMap_singleton, List.flatMap_singleton, hinserting, hx',
      List.append_nil, List.append_nil]
    exact ho.order
  · intro k hk
    rw [hactive] at hk
    rw [hconsumers, hcalls]
    refine (ho.known k hk).imp_right ?_
    rintro ⟨op, hop⟩
    exact ⟨op, List.mem_append_left _ hop⟩
  · intro k hk
    rw [hactive, hcalls] at hk
    rw [hinventory]
    refine ho.direct k (hk.imp_right ?_)
    rintro ⟨op, hop⟩
    refine ⟨op, (hmem _ hop).resolve_right ?_⟩
    rintro rfl
    simp [Call.isInsert] at hx

theorem step_ordered (c : State T) (a : Act T) (c' : State T) (ho : Ordered c)
    (hd : Disciplined c a) (h : step c a = some c') : Ordered c' := by
  have hc' := step_accounted c a c' ho.accounted h
  cases a with
  | push value =>
      cases h
      exact beginInsert_ordered ho _ rfl hd
  | emplace value =>
      cases h
      exact beginInsert_ordered ho _ rfl hd
  | asyncPop =>
      cases h
      refine begin_ordered ho hc' rfl rfl rfl ?_ rfl rfl rfl rfl rfl
      -- every earlier handler has been called
      intro k k' hk hk' hn hn'
      have hall : ∀ h, h < c.pops + 1 → h ∉ c.invoked.map Invocation.handler → h = c.pops := by
        intro h hlt hnot
        by_contra hne
        exact hnot (hd h (by omega))
      rw [hall k hk hn, hall k' hk' hn']
  | callCanceler consumer =>
      rw [step] at h
      split at h
      · cases h
        exact begin_ordered ho hc' rfl rfl rfl ho.pending rfl rfl rfl rfl rfl
      · simp at h
  | advance x =>
      rw [step] at h
      split at h
      · rename_i hx
        exact advance_ordered ho (advance_cases hx h)
      · simp at h

end Hittop.AsyncQueue

namespace Hittop

open AsyncQueue

/-- Under the discipline, with cancellations at any moment, the items that handlers receive are the
first of the items pushed, in this order. -/
theorem queue_is_fifo {T : Type} [DecidableEq T] (acts : List (AsyncQueue.Act T))
    (c : AsyncQueue.State T) (h : Run.run AsyncQueue.step .init acts = some c)
    (hdiscipline : Run.Along AsyncQueue.step Disciplined .init acts) :
    c.received <+: c.pushed := by
  have hinit : Ordered (AsyncQueue.State.init : AsyncQueue.State T) :=
    ⟨accounted .refl, by simp [AsyncQueue.State.init], by simp [AsyncQueue.State.init], rfl,
      by simp [AsyncQueue.State.init], by simp [AsyncQueue.State.init]⟩
  have ho := Run.run_invariant_along step_ordered hdiscipline h hinit
  rw [ho.order, List.append_assoc, List.append_assoc]
  exact List.prefix_append _ _

/-- A push takes the consumer of a pop that is canceled, and comes back to the consumer of the next
one. -/
theorem queue_is_fifo_canceled :
    ∃ c : AsyncQueue.State ℕ, Run.run AsyncQueue.step .init
      [.asyncPop, .advance (.pop 0), .advance (.finished (.canceler (some 0))), .push 5,
        .advance (.insert (.push ⟨0, 5⟩ none)), .callCanceler 0, .advance (.cancel 0 0),
        .advance (.abort 0 0), .asyncPop, .advance (.pop 1),
        .advance (.dispatch (.push ⟨0, 5⟩ none) 0),
        .advance (.insert (.push ⟨0, 5⟩ (some ⟨0, 5⟩))),
        .advance (.dispatch (.push ⟨0, 5⟩ (some ⟨0, 5⟩)) 1),
        .advance (.consume (.push ⟨0, 5⟩ (some ⟨0, 5⟩)) 1)] = some c ∧ c.received <+: c.pushed := by
  have hrun : (Run.run AsyncQueue.step (.init : AsyncQueue.State ℕ)
      [.asyncPop, .advance (.pop 0), .advance (.finished (.canceler (some 0))), .push 5,
        .advance (.insert (.push ⟨0, 5⟩ none)), .callCanceler 0, .advance (.cancel 0 0),
        .advance (.abort 0 0), .asyncPop, .advance (.pop 1),
        .advance (.dispatch (.push ⟨0, 5⟩ none) 0),
        .advance (.insert (.push ⟨0, 5⟩ (some ⟨0, 5⟩))),
        .advance (.dispatch (.push ⟨0, 5⟩ (some ⟨0, 5⟩)) 1),
        .advance (.consume (.push ⟨0, 5⟩ (some ⟨0, 5⟩)) 1)]).isSome := by
    decide +kernel
  obtain ⟨c, h⟩ := Option.isSome_iff_exists.1 hrun
  exact ⟨c, h, queue_is_fifo _ c h (by decide +kernel)⟩

end Hittop
