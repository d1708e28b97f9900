/-
**Items and consumers are matched once.**

Every item is in one place: a call holds it, or the inventory does, or a handler has received it.
Every handler is in one place as well: a call is about to invoke it, or its consumer is active, or
it has been invoked.  Steps move items and handlers from one place to another; an exchange of a flag
is what moves a handler from its consumer to one call.

Main definitions:

* `Hittop.AsyncQueue.Call.held`, `Call.handlers`, `Call.cancelIds` — what a call that has not
  returned answers for;
* `Hittop.AsyncQueue.Matched` — every item and every handler is in one place.

Main results:

* `Hittop.AsyncQueue.advance_accounted` — the next step of a call keeps them so;
* `Hittop.queue_matches_once` — over every interleaving.
-/

import Mathlib.Data.List.Nodup
import Hittop.Concurrent.AsyncQueue

set_option relaxedAutoImplicit false
set_option autoImplicit false

namespace Hittop.AsyncQueue

variable {T : Type}

namespace Call

/-- The items that a call holds. -/
def held : Call T → List (Item T)
  | insert op => [op.item]
  | dispatch op _ => [op.item]
  | consume op _ => [op.item]
  | deliver _ item => [item]
  | _ => []

/-- The handlers that a call is to invoke or to register. -/
def handlers : Call T → List ℕ
  | consume _ consumer => [consumer]
  | pop handler => [handler]
  | deliver handler _ => [handler]
  | abort _ consumer => [consumer]
  | _ => []

/-- The consumers whose flag a call has exchanged, and whose handler it is to invoke. -/
def claims : Call T → List ℕ
  | consume _ consumer => [consumer]
  | abort _ consumer => [consumer]
  | _ => []

theorem claims_subset_handlers (x : Call T) : x.claims ⊆ x.handlers := by
  cases x <;> simp [claims, handlers]

end Call

/-- The numbers of the calls of cancelers. -/
def Result.cancelIds : Result → List ℕ
  | .canceled id _ _ => [id]
  | _ => []

def Call.cancelIds : Call T → List ℕ
  | .cancel id _ => [id]
  | .abort id _ => [id]
  | .finished result => result.cancelIds
  | _ => []

/-- A handler that is called with an item has received it. -/
theorem received_append_item {l : List (Invocation T)} {handler : ℕ} {i : Item T} :
    (l ++ [(⟨handler, .item i⟩ : Invocation T)]).filterMap (fun y => y.argument.received) =
      l.filterMap (fun y => y.argument.received) ++ [i] := by
  simp [Argument.received]

theorem received_append_aborted {l : List (Invocation T)} {handler id : ℕ} :
    (l ++ [(⟨handler, .aborted id⟩ : Invocation T)]).filterMap (fun y => y.argument.received) =
      l.filterMap (fun y => y.argument.received) := by
  simp [Argument.received]

variable [DecidableEq T]

/-- Every item, every handler and every call of a canceler is in one place. -/
structure Matched (c : State T) : Prop where
  items : ∀ i, (c.calls.flatMap Call.held).count i + c.inventory.count i + c.received.count i =
    c.pushed.count i
  numbered : c.pushed.map Item.call = List.range c.pushed.length
  handlers : ∀ h, (c.calls.flatMap Call.handlers).count h + (c.active h).toNat +
    (c.invoked.map Invocation.handler).count h = if h < c.pops then 1 else 0
  ids : ∀ id, (c.calls.flatMap Call.cancelIds).count id +
    (c.returned.flatMap Result.cancelIds).count id = if id < c.cancels then 1 else 0
  empty : c.inventory = [] ∨ c.consumers = []

/-- A consumer that can still be called has its handler. -/
structure Engaged (c : State T) : Prop where
  active : ∀ h, c.active h = true → c.f h = some h
  claimed : ∀ x ∈ c.calls, ∀ h ∈ x.claims, c.f h = some h

variable {c c' : State T}

/-! ### Items -/

/-- A call is replaced: the item that it held is where it has been put. -/
theorem items_replace (hc : Matched c) {x : Call T} {ys : List (Call T)} (hx : x ∈ c.calls)
    (i : Item T) {inventory received : List (Item T)}
    (hmoved : (ys.flatMap Call.held).count i + inventory.count i + received.count i =
      x.held.count i + c.inventory.count i + c.received.count i) :
    ((Pool.replace c.calls x ys).flatMap Call.held).count i + inventory.count i +
      received.count i = c.pushed.count i := by
  have hold := hc.items i
  have hcount := Pool.count_replace Call.held ys hx i
  omega

theorem step_items (hc : Matched c) (h : Step c c') (i : Item T) :
    (c'.calls.flatMap Call.held).count i + c'.inventory.count i + c'.received.count i =
      c'.pushed.count i := by
  cases h with
  | store op hx hnil =>
      refine items_replace hc hx i ?_
      simp only [Call.held, List.flatMap_singleton, List.count_nil, List.count_append,
        State.received]
      omega
  | take_consumer op consumer consumers hx hcons => exact items_replace hc hx i rfl
  | claim op consumer hx hactive =>
      refine items_replace hc hx i ?_
      simp only [Call.held, List.flatMap_singleton, InsertOp.item_dispatch, State.received]
  | miss op consumer hx hactive =>
      refine items_replace hc hx i ?_
      simp only [Call.held, List.flatMap_singleton, InsertOp.item_dispatch, State.received]
  | consume op consumer handler hx hf =>
      refine items_replace hc hx i ?_
      rw [State.received, received_append_item]
      simp only [Call.held, List.flatMap_singleton, List.count_nil, List.count_append,
        State.received]
      omega
  | take_item handler item inventory hx hcons =>
      refine items_replace hc hx i ?_
      have htaken : c.inventory.count i = [item].count i + inventory.count i := by
        rw [hcons, ← List.singleton_append, List.count_append]
      simp only [Call.held, List.flatMap_singleton, List.count_nil, State.received]
      omega
  | wait handler hx hnil => exact items_replace hc hx i rfl
  | deliver handler item hx =>
      refine items_replace hc hx i ?_
      rw [State.received, received_append_item]
      simp only [Call.held, List.flatMap_singleton, List.count_nil, List.count_append,
        State.received]
      omega
  | claim_abort id consumer hx hactive => exact items_replace hc hx i rfl
  | miss_abort id consumer hx hactive => exact items_replace hc hx i rfl
  | abort id consumer handler hx hf =>
      refine items_replace hc hx i ?_
      rw [State.received, received_append_aborted]
      rfl
  | finish result hx => exact items_replace hc hx i rfl

/-! ### Handlers -/

private theorem count_update_false {active : ℕ → Bool} {k h : ℕ} (hk : active k = true) :
    (Function.update active k false h).toNat + [k].count h = (active h).toNat := by
  rcases eq_or_ne h k with rfl | hne
  · simp [hk]
  · simp [Function.update_of_ne hne, hne.symm]

private theorem count_update_true {active : ℕ → Bool} {k h : ℕ} (hk : active k = false) :
    (Function.update active k true h).toNat = (active h).toNat + [k].count h := by
  rcases eq_or_ne h k with rfl | hne
  · simp [hk]
  · simp [Function.update_of_ne hne, hne.symm]

/-- The handler that a call of `async_pop` registers has not been registered before. -/
theorem inactive_of_pop (hc : Matched c) {h : ℕ} (hx : .pop h ∈ c.calls) : c.active h = false := by
  have hone := hc.handlers h
  have hpos : 0 < (c.calls.flatMap Call.handlers).count h :=
    List.count_pos_iff.2 (List.mem_flatMap.2 ⟨_, hx, by simp [Call.handlers]⟩)
  cases hactive : c.active h with
  | false => rfl
  | true =>
      rw [hactive, Bool.toNat_true] at hone
      split at hone <;> omega

omit [DecidableEq T] in
private theorem count_invoked (invoked : List (Invocation T)) (h : ℕ) (a : Argument T) (k : ℕ) :
    ((invoked ++ [(⟨h, a⟩ : Invocation T)]).map Invocation.handler).count k =
      (invoked.map Invocation.handler).count k + [h].count k := by
  rw [List.map_append, List.count_append]
  rfl

/-- A call is replaced: the handler that it was to invoke is where it has been put. -/
theorem handlers_replace (hc : Matched c) {x : Call T} {ys : List (Call T)} (hx : x ∈ c.calls)
    (k : ℕ) {active : ℕ → Bool} {invoked : List (Invocation T)}
    (hmoved : (ys.flatMap Call.handlers).count k + (active k).toNat +
      (invoked.map Invocation.handler).count k = x.handlers.count k + (c.active k).toNat +
        (c.invoked.map Invocation.handler).count k) :
    ((Pool.replace c.calls x ys).flatMap Call.handlers).count k + (active k).toNat +
      (invoked.map Invocation.handler).count k = if k < c.pops then 1 else 0 := by
  have hold := hc.handlers k
  have hcount := Pool.count_replace Call.handlers ys hx k
  omega

omit [DecidableEq T] in
/-- Whoever has claimed a handler invokes it. -/
theorem eq_of_claimed (he : Engaged c) {x : Call T} {consumer handler : ℕ} (hx : x ∈ c.calls)
    (hclaims : consumer ∈ x.claims) (hf : c.f consumer = some handler) : consumer = handler :=
  Option.some.inj ((he.claimed x hx consumer hclaims).symm.trans hf)

theorem step_handlers (hc : Matched c) (he : Engaged c) (h : Step c c') (k : ℕ) :
    (c'.calls.flatMap Call.handlers).count k + (c'.active k).toNat +
      (c'.invoked.map Invocation.handler).count k = if k < c'.pops then 1 else 0 := by
  cases h with
  | store op hx hnil => exact handlers_replace hc hx k rfl
  | take_consumer op consumer consumers hx hcons => exact handlers_replace hc hx k rfl
  | claim op consumer hx hactive =>
      -- the flag is exchanged, and the call is to invoke the handler
      have hflag := count_update_false (h := k) hactive
      refine handlers_replace hc hx k ?_
      simp only [Call.handlers, List.flatMap_singleton, List.count_nil]
      omega
  | miss op consumer hx hactive => exact handlers_replace hc hx k rfl
  | consume op consumer handler hx hf =>
      obtain rfl := eq_of_claimed he hx (by simp [Call.claims]) hf
      refine handlers_replace hc hx k ?_
      simp only [Call.handlers, List.flatMap_singleton, List.count_nil, count_invoked]
      omega
  | take_item handler item inventory hx hcons => exact handlers_replace hc hx k rfl
  | wait handler hx hnil =>
      -- the flag is set, and the call leaves the handler to its consumer
      have hflag := count_update_true (h := k) (inactive_of_pop hc hx)
      refine handlers_replace hc hx k ?_
      simp only [Call.handlers, List.flatMap_singleton, List.count_nil]
      omega
  | deliver handler item hx =>
      refine handlers_replace hc hx k ?_
      simp only [Call.handlers, List.flatMap_singleton, List.count_nil, count_invoked]
      omega
  | claim_abort id consumer hx hactive =>
      have hflag := count_update_false (h := k) hactive
      refine handlers_replace hc hx k ?_
      simp only [Call.handlers, List.flatMap_singleton, List.count_nil]
      omega
  | miss_abort id consumer hx hactive => exact handlers_replace hc hx k rfl
  | abort id consumer handler hx hf =>
      obtain rfl := eq_of_claimed he hx (by simp [Call.claims]) hf
      refine handlers_replace hc hx k ?_
      simp only [Call.handlers, List.flatMap_singleton, List.count_nil, count_invoked]
      omega
  | finish result hx => exact handlers_replace hc hx k rfl

/-- Only one call is to invoke a handler, and only one that has not been invoked. -/
theorem handlers_unique (hc : Matched c) {x : Call T} {h : ℕ} (hx : x ∈ c.calls)
    (hh : h ∈ x.handlers) : c.active h = false ∧ ∀ y ∈ c.calls.erase x, h ∉ y.handlers := by
  have hone := hc.handlers h
  have hpos : 0 < (c.calls.flatMap Call.handlers).count h :=
    List.count_pos_iff.2 (List.mem_flatMap.2 ⟨x, hx, hh⟩)
  constructor
  · cases hactive : c.active h with
    | false => rfl
    | true =>
        rw [hactive, Bool.toNat_true] at hone
        split at hone <;> omega
  · intro y hy
    refine Pool.not_mem_of_count_le_one hx hh ?_ hy
    split at hone <;> omega

/-- A call that claims nothing new is replaced. -/
theorem claimed_replace (he : Engaged c) {x y : Call T} {ys : List (Call T)} {h : ℕ}
    (hys : ∀ y ∈ ys, y.claims = []) (hy : y ∈ Pool.replace c.calls x ys) (hh : h ∈ y.claims) :
    c.f h = some h := by
  rcases Pool.mem_or_of_mem_replace hy with hy | hy
  · exact he.claimed y hy h hh
  · rw [hys y hy] at hh
    simp at hh

/-- A call claims the handler of an active consumer, which is not active any more. -/
theorem engaged_claim (he : Engaged c) {x y : Call T} {consumer : ℕ}
    (hactive : c.active consumer = true) (hclaims : y.claims = [consumer]) :
    (∀ h, Function.update c.active consumer false h = true → c.f h = some h) ∧
      ∀ y' ∈ Pool.replace c.calls x [y], ∀ h ∈ y'.claims, c.f h = some h := by
  constructor
  · intro h hh
    refine he.active h ?_
    rcases eq_or_ne h consumer with rfl | hne
    · exact hactive
    · rwa [Function.update_of_ne hne] at hh
  · intro y' hy' h hh
    rcases Pool.mem_or_of_mem_replace hy' with hy' | hy'
    · exact he.claimed y' hy' h hh
    · rw [List.mem_singleton.1 hy', hclaims, List.mem_singleton] at hh
      rw [hh]
      exact he.active consumer hactive

/-- The handler that a call has claimed is invoked, and its consumer is not engaged any more. -/
theorem engaged_invoke (hc : Matched c) (he : Engaged c) {x : Call T} (result : Result)
    {consumer : ℕ} (hx : x ∈ c.calls) (hclaims : x.claims = [consumer]) :
    (∀ h, c.active h = true → Function.update c.f consumer none h = some h) ∧
      ∀ y ∈ Pool.replace c.calls x [.finished result], ∀ h ∈ y.claims,
        Function.update c.f consumer none h = some h := by
  have hmem : consumer ∈ x.handlers := x.claims_subset_handlers (by simp [hclaims])
  obtain ⟨hinactive, hunique⟩ := handlers_unique hc hx hmem
  constructor
  · intro h hactive
    have hne : h ≠ consumer := by
      rintro rfl
      simp [hinactive] at hactive
    rw [Function.update_of_ne hne]
    exact he.active h hactive
  · intro y hy h hh
    rcases List.mem_append.1 hy with hy | hy
    · have hne : h ≠ consumer := by
        rintro rfl
        exact hunique y hy (y.claims_subset_handlers hh)
      rw [Function.update_of_ne hne]
      exact he.claimed y (List.mem_of_mem_erase hy) h hh
    · rw [List.mem_singleton.1 hy] at hh
      simp [Call.claims] at hh

/-- A consumer keeps its handler until the handler is invoked. -/
theorem step_engaged (hc : Matched c) (he : Engaged c) (h : Step c c') : Engaged c' := by
  cases h with
  | store op hx hnil =>
      exact ⟨he.active, fun y hy h hh => claimed_replace he (by simp [Call.claims]) hy hh⟩
  | take_consumer op consumer consumers hx hcons =>
      exact ⟨he.active, fun y hy h hh => claimed_replace he (by simp [Call.claims]) hy hh⟩
  | claim op consumer hx hactive =>
      obtain ⟨hactive', hclaimed⟩ :=
        engaged_claim he (y := .consume op.dispatch consumer) hactive rfl
      exact ⟨hactive', hclaimed⟩
  | miss op consumer hx hactive =>
      exact ⟨he.active, fun y hy h hh => claimed_replace he (by simp [Call.claims]) hy hh⟩
  | consume op consumer handler hx hf =>
      obtain ⟨hactive, hclaimed⟩ := engaged_invoke hc he .inserted hx rfl
      exact ⟨hactive, hclaimed⟩
  | take_item handler item inventory hx hcons =>
      exact ⟨he.active, fun y hy h hh => claimed_replace he (by simp [Call.claims]) hy hh⟩
  | wait handler hx hnil =>
      constructor
      · intro h hh
        rcases eq_or_ne h handler with rfl | hne
        · exact Function.update_self ..
        · simp only [Function.update_of_ne hne] at hh ⊢
          exact he.active h hh
      · intro y hy h hh
        rcases eq_or_ne h handler with rfl | hne
        · exact Function.update_self ..
        · simp only [Function.update_of_ne hne]
          exact claimed_replace he (by simp [Call.claims]) hy hh
  | deliver handler item hx =>
      exact ⟨he.active, fun y hy h hh => claimed_replace he (by simp [Call.claims]) hy hh⟩
  | claim_abort id consumer hx hactive =>
      obtain ⟨hactive', hclaimed⟩ := engaged_claim he (y := .abort id consumer) hactive rfl
      exact ⟨hactive', hclaimed⟩
  | miss_abort id consumer hx hactive =>
      exact ⟨he.active, fun y hy h hh => claimed_replace he (by simp [Call.claims]) hy hh⟩
  | abort id consumer handler hx hf =>
      obtain ⟨hactive, hclaimed⟩ := engaged_invoke hc he (.canceled id consumer true) hx rfl
      exact ⟨hactive, hclaimed⟩
  | finish result hx =>
      exact ⟨he.active, fun y hy h hh => claimed_replace he (by simp) hy hh⟩

/-! ### Cancelers -/

/-- What the calls of cancelers have done so far is what they return. -/
structure Cancelled (c : State T) : Prop where
  /-- Whoever has yet to invoke a handler has not invoked one. -/
  running : ∀ id k h, .cancel id k ∈ c.calls ∨ .abort id k ∈ c.calls → ⟨h, .aborted id⟩ ∉ c.invoked
  results : ∀ id k b, .finished (.canceled id k b) ∈ c.calls ∨ .canceled id k b ∈ c.returned →
    (b = true ↔ ⟨k, .aborted id⟩ ∈ c.invoked)
  known : ∀ id h, ⟨h, .aborted id⟩ ∈ c.invoked → id < c.cancels

theorem step_ids (hc : Matched c) (h : Step c c') (id : ℕ) :
    (c'.calls.flatMap Call.cancelIds).count id + (c'.returned.flatMap Result.cancelIds).count id =
      if id < c'.cancels then 1 else 0 := by
  have hold := hc.ids id
  -- a call keeps its number until it returns
  have hkeep : ∀ (x y : Call T), x ∈ c.calls → y.cancelIds = x.cancelIds →
      ((Pool.replace c.calls x [y]).flatMap Call.cancelIds).count id +
        (c.returned.flatMap Result.cancelIds).count id = if id < c.cancels then 1 else 0 := by
    intro x y hx hy
    have hcount := Pool.count_replace Call.cancelIds [y] hx id
    rw [List.flatMap_singleton, hy] at hcount
    omega
  cases h with
  | store op hx hnil => exact hkeep _ _ hx rfl
  | take_consumer op consumer consumers hx hcons => exact hkeep _ _ hx rfl
  | claim op consumer hx hactive => exact hkeep _ _ hx rfl
  | miss op consumer hx hactive => exact hkeep _ _ hx rfl
  | consume op consumer handler hx hf => exact hkeep _ _ hx rfl
  | take_item handler item inventory hx hcons => exact hkeep _ _ hx rfl
  | wait handler hx hnil => exact hkeep _ _ hx rfl
  | deliver handler item hx => exact hkeep _ _ hx rfl
  | claim_abort id consumer hx hactive => exact hkeep _ _ hx rfl
  | miss_abort id consumer hx hactive => exact hkeep _ _ hx rfl
  | abort id consumer handler hx hf => exact hkeep _ _ hx rfl
  | finish result hx =>
      have hcount := Pool.count_replace Call.cancelIds [] hx id
      simp only [Call.cancelIds, List.flatMap_nil, List.count_nil, List.flatMap_append,
        List.flatMap_singleton, List.count_append] at hcount ⊢
      omega

/-- A call of a canceler has one number, for itself. -/
theorem ids_unique (hc : Matched c) {x : Call T} {id : ℕ} (hx : x ∈ c.calls)
    (hid : id ∈ x.cancelIds) : (∀ y ∈ c.calls.erase x, id ∉ y.cancelIds) ∧
      ∀ r ∈ c.returned, id ∉ r.cancelIds := by
  have hone := hc.ids id
  have hpos : 0 < (c.calls.flatMap Call.cancelIds).count id :=
    List.count_pos_iff.2 (List.mem_flatMap.2 ⟨x, hx, hid⟩)
  constructor
  · intro y hy
    refine Pool.not_mem_of_count_le_one hx hid ?_ hy
    split at hone <;> omega
  · intro r hr hidr
    have hreturned : 0 < (c.returned.flatMap Result.cancelIds).count id :=
      List.count_pos_iff.2 (List.mem_flatMap.2 ⟨r, hr, hidr⟩)
    split at hone <;> omega

/-- A call of a canceler that has been numbered is known. -/
theorem lt_cancels (hc : Matched c) {id : ℕ}
    (hid : id ∈ c.calls.flatMap Call.cancelIds ∨ id ∈ c.returned.flatMap Result.cancelIds) :
    id < c.cancels := by
  have hone := hc.ids id
  by_contra hlt
  rw [if_neg hlt] at hone
  rcases hid with hid | hid
  · have := List.count_pos_iff.2 hid
    omega
  · have := List.count_pos_iff.2 hid
    omega

/-- A step that has nothing to do with cancelers. -/
theorem cancelled_replace (hcan : Cancelled c) {x : Call T} {ys : List (Call T)}
    {invoked : List (Invocation T)} (hcalls : c'.calls = Pool.replace c.calls x ys)
    (hys : ∀ y ∈ ys, y.cancelIds = []) (hinvoked : c'.invoked = c.invoked ++ invoked)
    (hitems : ∀ y ∈ invoked, ∀ id, y.argument ≠ .aborted id) (hreturned : c'.returned = c.returned)
    (hcancels : c'.cancels = c.cancels) : Cancelled c' := by
  have hmem : ∀ id h, ⟨h, .aborted id⟩ ∈ c'.invoked ↔ ⟨h, .aborted id⟩ ∈ c.invoked := by
    intro id h
    rw [hinvoked, List.mem_append]
    exact or_iff_left fun hi => hitems _ hi id rfl
  have hold : ∀ y ∈ c'.calls, y.cancelIds ≠ [] → y ∈ c.calls := by
    intro y hy hne
    rw [hcalls] at hy
    exact (Pool.mem_or_of_mem_replace hy).resolve_right fun hy => hne (hys y hy)
  constructor
  · intro id k h hx hi
    refine hcan.running id k h (hx.imp (fun hx => ?_) fun hx => ?_) ((hmem id h).1 hi)
    · exact hold _ hx (by simp [Call.cancelIds])
    · exact hold _ hx (by simp [Call.cancelIds])
  · intro id k b hx
    rw [hmem]
    refine hcan.results id k b (hx.imp (fun hx => ?_) fun hx => ?_)
    · exact hold _ hx (by simp [Call.cancelIds, Result.cancelIds])
    · rw [← hreturned]
      exact hx
  · intro id h hi
    rw [hcancels]
    exact hcan.known id h ((hmem id h).1 hi)

/-- A canceler that has exchanged the flag has yet to invoke the handler. -/
theorem cancelled_claim (hcan : Cancelled c) {id consumer : ℕ} (hx : .cancel id consumer ∈ c.calls)
    (active : ℕ → Bool) : Cancelled { c with
      active, calls := Pool.replace c.calls (.cancel id consumer) [.abort id consumer] } := by
  constructor
  · intro id' k h hy
    rcases hy with hy | hy
    · refine hcan.running id' k h (.inl ?_)
      simpa using Pool.mem_or_of_mem_replace hy
    · rcases Pool.mem_or_of_mem_replace hy with hy | hy
      · exact hcan.running id' k h (.inr hy)
      · obtain ⟨rfl, rfl⟩ : id' = id ∧ k = consumer := by simpa using hy
        exact hcan.running id' k h (.inl hx)
  · intro id' k b hy
    refine hcan.results id' k b (hy.imp_left fun hy => ?_)
    simpa using Pool.mem_or_of_mem_replace hy
  · exact hcan.known

/-- A canceler that comes too late returns false, and has invoked no handler. -/
theorem cancelled_miss (hcan : Cancelled c) {id consumer : ℕ} (hx : .cancel id consumer ∈ c.calls) :
    Cancelled { c with
      calls := Pool.replace c.calls (.cancel id consumer)
        [.finished (.canceled id consumer false)] } := by
  constructor
  · intro id' k h hy
    refine hcan.running id' k h (hy.imp (fun hy => ?_) fun hy => ?_)
    · simpa using Pool.mem_or_of_mem_replace hy
    · simpa using Pool.mem_or_of_mem_replace hy
  · intro id' k b hy
    rcases hy with hy | hy
    · rcases Pool.mem_or_of_mem_replace hy with hy | hy
      · exact hcan.results id' k b (.inl hy)
      · obtain ⟨rfl, rfl, rfl⟩ : id' = id ∧ k = consumer ∧ b = false := by simpa using hy
        simpa using hcan.running id' k k (.inl hx)
    · exact hcan.results id' k b (.inr hy)
  · exact hcan.known

/-- A canceler invokes the handler, with its number, and returns true. -/
theorem cancelled_abort (hc : Matched c) (hcan : Cancelled c) {id consumer : ℕ}
    (hx : .abort id consumer ∈ c.calls) (f : ℕ → Option ℕ) : Cancelled { c with
      f
      invoked := c.invoked ++ [⟨consumer, .aborted id⟩]
      calls := Pool.replace c.calls (.abort id consumer)
        [.finished (.canceled id consumer true)] } := by
  -- the other calls have other numbers
  obtain ⟨hcalls, hreturned⟩ := ids_unique hc hx (by simp [Call.cancelIds] : id ∈ _)
  have hother : ∀ id' h, id' ≠ id →
      (⟨h, .aborted id'⟩ ∈ c.invoked ++ [⟨consumer, .aborted id⟩] ↔
        ⟨h, .aborted id'⟩ ∈ c.invoked) := by
    intro id' h hne
    simp [hne]
  constructor
  · intro id' k h hy
    have hy' : .cancel id' k ∈ c.calls.erase (.abort id consumer) ∨
        .abort id' k ∈ c.calls.erase (.abort id consumer) := by
      refine hy.imp (fun hy => ?_) fun hy => ?_
      · simpa [Pool.replace] using hy
      · simpa [Pool.replace] using hy
    have hne : id' ≠ id := by
      rintro rfl
      rcases hy' with hy' | hy'
      · exact hcalls _ hy' (by simp [Call.cancelIds])
      · exact hcalls _ hy' (by simp [Call.cancelIds])
    rw [hother id' h hne]
    exact hcan.running id' k h (hy'.imp List.mem_of_mem_erase List.mem_of_mem_erase)
  · intro id' k b hy
    rcases hy with hy | hy
    · rcases List.mem_append.1 hy with hy | hy
      · have hne : id' ≠ id := by
          rintro rfl
          exact hcalls _ hy (by simp [Call.cancelIds, Result.cancelIds])
        rw [hother id' k hne]
        exact hcan.results id' k b (.inl (List.mem_of_mem_erase hy))
      · obtain ⟨rfl, rfl, rfl⟩ : id' = id ∧ k = consumer ∧ b = true := by simpa using hy
        simp
    · have hne : id' ≠ id := by
        rintro rfl
        exact hreturned _ hy (by simp [Result.cancelIds])
      rw [hother id' k hne]
      exact hcan.results id' k b (.inr hy)
  · intro id' h hi
    rcases List.mem_append.1 hi with hi | hi
    · exact hcan.known id' h hi
    · obtain ⟨-, rfl⟩ : h = consumer ∧ id' = id := by simpa using hi
      exact lt_cancels hc (.inl (List.mem_flatMap.2 ⟨_, hx, by simp [Call.cancelIds]⟩))

theorem cancelled_return (hcan : Cancelled c) {result : Result} (hx : .finished result ∈ c.calls) :
    Cancelled { c with
      returned := c.returned ++ [result]
      calls := Pool.replace c.calls (.finished result) [] } := by
  constructor
  · intro id k h hy
    refine hcan.running id k h (hy.imp (fun hy => ?_) fun hy => ?_)
    · simpa using Pool.mem_or_of_mem_replace hy
    · simpa using Pool.mem_or_of_mem_replace hy
  · intro id k b hy
    rcases hy with hy | hy
    · exact hcan.results id k b (.inl (by simpa using Pool.mem_or_of_mem_replace hy))
    · rcases List.mem_append.1 hy with hy | hy
      · exact hcan.results id k b (.inr hy)
      · rw [List.mem_singleton] at hy
        rw [← hy] at hx
        exact hcan.results id k b (.inl hx)
  · exact hcan.known

theorem step_cancelled (hc : Matched c) (he : Engaged c) (hcan : Cancelled c) (h : Step c c') :
    Cancelled c' := by
  cases h with
  | store op hx hnil =>
      exact cancelled_replace hcan rfl (by simp [Call.cancelIds, Result.cancelIds])
        (List.append_nil _).symm (by simp) rfl rfl
  | take_consumer op consumer consumers hx hcons =>
      exact cancelled_replace hcan rfl (by simp [Call.cancelIds]) (List.append_nil _).symm (by simp)
        rfl rfl
  | claim op consumer hx hactive =>
      exact cancelled_replace hcan rfl (by simp [Call.cancelIds]) (List.append_nil _).symm (by simp)
        rfl rfl
  | miss op consumer hx hactive =>
      exact cancelled_replace hcan rfl (by simp [Call.cancelIds]) (List.append_nil _).symm (by simp)
        rfl rfl
  | consume op consumer handler hx hf =>
      exact cancelled_replace hcan rfl (by simp [Call.cancelIds, Result.cancelIds]) rfl (by simp)
        rfl rfl
  | take_item handler item inventory hx hcons =>
      exact cancelled_replace hcan rfl (by simp [Call.cancelIds]) (List.append_nil _).symm (by simp)
        rfl rfl
  | wait handler hx hnil =>
      exact cancelled_replace hcan rfl (by simp [Call.cancelIds, Result.cancelIds])
        (List.append_nil _).symm (by simp) rfl rfl
  | deliver handler item hx =>
      exact cancelled_replace hcan rfl (by simp [Call.cancelIds, Result.cancelIds]) rfl (by simp)
        rfl rfl
  | claim_abort id consumer hx hactive => exact cancelled_claim hcan hx _
  | miss_abort id consumer hx hactive => exact cancelled_miss hcan hx
  | abort id consumer handler hx hf =>
      obtain rfl := eq_of_claimed he hx (by simp [Call.claims]) hf
      exact cancelled_abort hc hcan hx _
  | finish result hx => exact cancelled_return hcan hx

/-! ### Steps -/

/-- Items are put into the inventory where no consumer waits, and consumers are put into the queue
where there is no item. -/
theorem step_empty (hempty : c.inventory = [] ∨ c.consumers = []) (h : Step c c') :
    c'.inventory = [] ∨ c'.consumers = [] := by
  cases h with
  | store op hx hnil => exact .inr hnil
  | take_consumer op consumer consumers hx hcons =>
      exact .inl (hempty.resolve_right (by simp [hcons]))
  | take_item handler item inventory hx hcons =>
      exact .inr (hempty.resolve_left (by simp [hcons]))
  | wait handler hx hnil => exact .inl hnil
  | _ => exact hempty

theorem step_numbered (hc : Matched c) (h : Step c c') :
    c'.pushed.map Item.call = List.range c'.pushed.length := by
  cases h <;> exact hc.numbered

/-- Items, handlers and cancelers are accounted for. -/
structure Accounted (c : State T) : Prop where
  matched : Matched c
  engaged : Engaged c
  cancelled : Cancelled c

theorem advance_accounted (hc : Accounted c) (h : Step c c') : Accounted c' where
  matched :=
    { items := step_items hc.matched h
      numbered := step_numbered hc.matched h
      handlers := step_handlers hc.matched hc.engaged h
      ids := step_ids hc.matched h
      empty := step_empty hc.matched.empty h }
  engaged := step_engaged hc.matched hc.engaged h
  cancelled := step_cancelled hc.matched hc.engaged hc.cancelled h

/-- The next number is new. -/
private theorem count_next (n k : ℕ) :
    (if k < n + 1 then 1 else 0) = (if k < n then 1 else 0) + [n].count k := by
  rcases Nat.lt_trichotomy k n with h | rfl | h
  · rw [if_pos (by omega), if_pos h, List.count_eq_zero.2 (by simp; omega)]
  · simp
  · rw [if_neg (by omega), if_neg (by omega), List.count_eq_zero.2 (by simp; omega)]

/-- A call begins that claims no handler and is not one of a canceler. -/
theorem begin_accounted (hc : Accounted c) (pushed : List (Item T)) (pops : ℕ) {x : Call T}
    (hclaims : x.claims = []) (hids : x.cancelIds = []) :
    Engaged { c with calls := c.calls ++ [x], pushed, pops } ∧
      Cancelled { c with calls := c.calls ++ [x], pushed, pops } := by
  have hold : ∀ y ∈ c.calls ++ [x], y ∈ c.calls ∨ y = x := by
    intro y hy
    simpa using hy
  constructor
  · refine ⟨hc.engaged.active, fun y hy h hh => ?_⟩
    rcases hold y hy with hy | rfl
    · exact hc.engaged.claimed y hy h hh
    · simp [hclaims] at hh
  · constructor
    · intro id k h hy
      refine hc.cancelled.running id k h (hy.imp (fun hy => ?_) fun hy => ?_)
      · exact (hold _ hy).resolve_right (by rintro rfl; simp [Call.cancelIds] at hids)
      · exact (hold _ hy).resolve_right (by rintro rfl; simp [Call.cancelIds] at hids)
    · intro id k b hy
      refine hc.cancelled.results id k b (hy.imp_left fun hy => ?_)
      exact (hold _ hy).resolve_right
        (by rintro rfl; simp [Call.cancelIds, Result.cancelIds] at hids)
    · exact hc.cancelled.known

theorem beginInsert_accounted (hc : Accounted c) (op : InsertOp T)
    (hop : op.item.call = c.pushed.length) : Accounted (beginInsert c op) := by
  obtain ⟨hengaged, hcancelled⟩ :=
    begin_accounted hc (c.pushed ++ [op.item]) c.pops (x := .insert op) rfl rfl
  refine ⟨⟨?_, ?_, ?_, ?_, hc.matched.empty⟩, hengaged, hcancelled⟩
  · intro i
    have hold := hc.matched.items i
    simp only [beginInsert, State.received, List.flatMap_append, List.flatMap_singleton, Call.held,
      List.count_append] at hold ⊢
    omega
  · simp only [beginInsert]
    rw [List.map_append, hc.matched.numbered, List.length_append, List.length_singleton,
      List.range_succ, List.map_singleton, hop]
  · intro h
    simp only [beginInsert, List.flatMap_append, List.flatMap_singleton, Call.handlers,
      List.append_nil]
    exact hc.matched.handlers h
  · intro id
    simp only [beginInsert, List.flatMap_append, List.flatMap_singleton, Call.cancelIds,
      List.append_nil]
    exact hc.matched.ids id

theorem asyncPop_accounted (hc : Accounted c) :
    Accounted { c with pops := c.pops + 1, calls := c.calls ++ [.pop c.pops] } := by
  obtain ⟨hengaged, hcancelled⟩ :=
    begin_accounted hc c.pushed (c.pops + 1) (x := .pop c.pops) rfl rfl
  refine ⟨⟨?_, hc.matched.numbered, ?_, ?_, hc.matched.empty⟩, hengaged, hcancelled⟩
  · intro i
    simp only [List.flatMap_append, List.flatMap_singleton, Call.held, List.append_nil]
    exact hc.matched.items i
  · intro h
    have hold := hc.matched.handlers h
    have hnew := count_next c.pops h
    simp only [List.flatMap_append, List.flatMap_singleton, Call.handlers, List.count_append]
    omega
  · intro id
    simp only [List.flatMap_append, List.flatMap_singleton, Call.cancelIds, List.append_nil]
    exact hc.matched.ids id

theorem callCanceler_accounted (hc : Accounted c) (consumer : ℕ) :
    Accounted { c with
      cancels := c.cancels + 1
      calls := c.calls ++ [.cancel c.cancels consumer] } := by
  have hold : ∀ y ∈ c.calls ++ [.cancel c.cancels consumer],
      y ∈ c.calls ∨ y = .cancel c.cancels consumer := by
    intro y hy
    simpa using hy
  refine ⟨⟨?_, hc.matched.numbered, ?_, ?_, hc.matched.empty⟩, ⟨hc.engaged.active, ?_⟩,
    ⟨?_, ?_, ?_⟩⟩
  · intro i
    simp only [List.flatMap_append, List.flatMap_singleton, Call.held, List.append_nil]
    exact hc.matched.items i
  · intro h
    simp only [List.flatMap_append, List.flatMap_singleton, Call.handlers, List.append_nil]
    exact hc.matched.handlers h
  · intro id
    have hids := hc.matched.ids id
    have hnew := count_next c.cancels id
    simp only [List.flatMap_append, List.flatMap_singleton, Call.cancelIds, List.count_append]
    omega
  · intro y hy h hh
    rcases hold y hy with hy | rfl
    · exact hc.engaged.claimed y hy h hh
    · simp [Call.claims] at hh
  · intro id k h hy hi
    -- no handler has been invoked with the number of the new call
    have hlt := hc.cancelled.known id h hi
    refine hc.cancelled.running id k h (hy.imp (fun hy => ?_) fun hy => ?_) hi
    · refine (hold _ hy).resolve_right fun heq => ?_
      obtain ⟨rfl, -⟩ : id = c.cancels ∧ k = consumer := by simpa using heq
      exact Nat.lt_irrefl _ hlt
    · exact (hold _ hy).resolve_right (by simp)
  · intro id k b hy
    refine hc.cancelled.results id k b (hy.imp_left fun hy => ?_)
    exact (hold _ hy).resolve_right (by simp)
  · intro id h hi
    exact Nat.lt_succ_of_lt (hc.cancelled.known id h hi)

theorem step_accounted (c : State T) (a : Act T) (c' : State T) (hc : Accounted c)
    (h : step c a = some c') : Accounted c' := by
  cases a with
  | push value =>
      cases h
      exact beginInsert_accounted hc _ rfl
  | emplace value =>
      cases h
      exact beginInsert_accounted hc _ rfl
  | asyncPop =>
      cases h
      exact asyncPop_accounted hc
  | callCanceler consumer =>
      rw [step] at h
      split at h
      · cases h
        exact callCanceler_accounted hc consumer
      · simp at h
  | advance x =>
      rw [step] at h
      split at h
      · rename_i hx
        exact advance_accounted hc (advance_cases hx h)
      · simp at h

theorem accounted (h : Run.Reachable step State.init c) : Accounted c := by
  refine h.invariant step_accounted ⟨⟨?_, rfl, ?_, ?_, .inl rfl⟩, ⟨?_, ?_⟩, ⟨?_, ?_, ?_⟩⟩ <;>
    simp [State.init, State.received]

/-- The items are different, since they are numbered. -/
theorem Matched.nodup_pushed (hc : Matched c) : c.pushed.Nodup := by
  refine List.Nodup.of_map Item.call ?_
  rw [hc.numbered]
  exact List.nodup_range

theorem Matched.nodup_invoked (hc : Matched c) : (c.invoked.map Invocation.handler).Nodup := by
  refine List.nodup_iff_count_le_one.2 fun h => ?_
  have hone := hc.handlers h
  split at hone <;> omega

/-- Whoever has claimed a handler can invoke it: `f_` is not empty. -/
theorem advance_isSome (hc : Accounted c) {x : Call T} (hx : x ∈ c.calls) :
    (step c (.advance x)).isSome := by
  rw [step, if_pos hx]
  cases x with
  | insert op =>
      rw [advance]
      split <;> rfl
  | dispatch op consumer =>
      rw [advance]
      split <;> rfl
  | consume op consumer =>
      rw [advance, hc.engaged.claimed _ hx consumer (by simp [Call.claims])]
      rfl
  | pop handler =>
      rw [advance]
      split <;> rfl
  | deliver handler item => rfl
  | cancel id consumer =>
      rw [advance]
      split <;> rfl
  | abort id consumer =>
      rw [advance, hc.engaged.claimed _ hx consumer (by simp [Call.claims])]
      rfl
  | finished result => rfl

end Hittop.AsyncQueue

namespace Hittop

open AsyncQueue

/-- Over every interleaving of pushes, pops and cancellations: an item that has been pushed is held
by one call, or in the inventory, or has been received by one handler; no handler is invoked twice;
a canceler returns true just where its call is the one that has aborted the handler; and between two
sections no item and consumer are left unmatched. -/
theorem queue_matches_once {T : Type} [DecidableEq T] (c : AsyncQueue.State T)
    (h : Run.Reachable AsyncQueue.step .init c) :
    (∀ i ∈ c.pushed, (c.calls.flatMap Call.held).count i + c.inventory.count i +
      c.received.count i = 1) ∧
    (c.invoked.map Invocation.handler).Nodup ∧
    (∀ id k b, .canceled id k b ∈ c.returned → (b = true ↔ ⟨k, .aborted id⟩ ∈ c.invoked)) ∧
    (c.inventory = [] ∨ c.consumers = []) := by
  have hc := accounted h
  refine ⟨fun i hi => ?_, hc.matched.nodup_invoked,
    fun id k b hr => hc.cancelled.results id k b (.inr hr), hc.matched.empty⟩
  rw [hc.matched.items i]
  exact List.count_eq_one_of_mem hc.matched.nodup_pushed hi

/-- A push has taken the consumer of a pop, and the canceler comes before it to its flag: the item
is stored. -/
theorem queue_matches_once_canceled :
    ∃ c : AsyncQueue.State ℕ, Run.run AsyncQueue.step .init
      [.asyncPop, .advance (.pop 0), .advance (.finished (.canceler (some 0))), .push 5,
        .advance (.insert (.push ⟨0, 5⟩ none)), .callCanceler 0, .advance (.cancel 0 0),
        .advance (.dispatch (.push ⟨0, 5⟩ none) 0), .advance (.abort 0 0),
        .advance (.insert (.push ⟨0, 5⟩ (some ⟨0, 5⟩))),
        .advance (.finished (.canceled 0 0 true))] = some c ∧ ⟨0, .aborted 0⟩ ∈ c.invoked := by
  obtain ⟨c, h, hr⟩ : ∃ c : AsyncQueue.State ℕ, Run.run AsyncQueue.step .init
      [.asyncPop, .advance (.pop 0), .advance (.finished (.canceler (some 0))), .push 5,
        .advance (.insert (.push ⟨0, 5⟩ none)), .callCanceler 0, .advance (.cancel 0 0),
        .advance (.dispatch (.push ⟨0, 5⟩ none) 0), .advance (.abort 0 0),
        .advance (.insert (.push ⟨0, 5⟩ (some ⟨0, 5⟩))),
        .advance (.finished (.canceled 0 0 true))] = some c ∧ .canceled 0 0 true ∈ c.returned :=
    ⟨_, rfl, by decide⟩
  exact ⟨c, h, ((queue_matches_once c ⟨_, h⟩).2.2.1 0 0 true hr).1 rfl⟩

end Hittop
