/-
**Writers and readers that wait for each other.**

The writer waits for room and the reader waits for bytes, and what is not room is bytes.  So both
wait only if together they ask for more than the storage has by two bytes at least; and then there
is a run after which both wait.  Nobody has a view of the storage then, so that nothing but closing
a side ends the waiting.

Main definitions:

* `Hittop.Session.BothWait` — the handlers of both sides are stored;
* `Hittop.Act.AsksAtMost` — no more bytes, and no more room, are asked for;
* `Hittop.Act.Closes` — a side is closed.

Main results:

* `Hittop.mutual_wait_iff` — when the two can come to wait for each other;
* `Hittop.mutual_wait_stuck` — they do so until a side is closed.
-/

import Hittop.Io.Session

set_option relaxedAutoImplicit false
set_option autoImplicit false

namespace Hittop

namespace Act

/-- A fetch asks for `m` bytes at most, a preparation for room of `n` bytes at most. -/
def AsksAtMost (m n : SizeT) : Act → Prop
  | asyncFetch x => x ≤ m
  | asyncPrepare x => x ≤ n
  | _ => True

/-- A side is closed. -/
def Closes : Act → Prop
  | closeForWrite => True
  | closeForRead => True
  | _ => False

end Act

namespace AsyncCircularBufferStream

variable {k : ℕ} {H : Type} {s s' : AsyncCircularBufferStream k H} {m n x : SizeT} {h : H}
  {cs : List (Completion H)}

/-- The handlers that are stored wait for no more than `m` bytes and room of `n` bytes. -/
def Asks (m n : SizeT) (s : AsyncCircularBufferStream k H) : Prop :=
  (s.fetchHandler ≠ none → s.minimumToFetch ≤ m) ∧
    (s.prepareHandler ≠ none → s.minimumToPrepare ≤ n)

theorem asks_asyncPrepare (hs : s.Asks m n) (hx : x ≤ n) (h : s.asyncPrepare x h = (s', cs)) :
    s'.Asks m n := by
  obtain ⟨_, rfl, -⟩ | ⟨-, -, -, -, -, -, rfl⟩ | ⟨-, -, -, -, -, rfl⟩ := asyncPrepare_cases h
  · exact hs
  · exact ⟨hs.1, fun _ => hx⟩
  · exact hs

theorem asks_asyncFetch (hs : s.Asks m n) (hx : x ≤ m) (h : s.asyncFetch x h = (s', cs)) :
    s'.Asks m n := by
  obtain ⟨_, rfl, -, -⟩ | ⟨-, -, -, -, -, -, rfl⟩ | ⟨-, -, -, -, rfl⟩ := asyncFetch_cases h
  · exact hs
  · exact ⟨fun _ => hx, hs.2⟩
  · exact hs

theorem asks_commit (hs : s.Asks m n) (h : s.commit x = some (s', cs)) : s'.Asks m n := by
  obtain ⟨-, b, -, ⟨_, -, -, -, rfl⟩ | ⟨-, -, rfl⟩⟩ := commit_cases h
  · exact ⟨fun hf => absurd rfl hf, hs.2⟩
  · exact hs

theorem asks_consume (hs : s.Asks m n) (h : s.consume x = some (s', cs)) : s'.Asks m n := by
  obtain ⟨-, b, -, ⟨_, -, -, -, rfl⟩ | ⟨-, -, rfl⟩⟩ := consume_cases h
  · exact ⟨hs.1, fun hp => absurd rfl hp⟩
  · exact hs

theorem asks_closeForWrite (hs : s.Asks m n) : s.closeForWrite.1.Asks m n := by
  cases hw : s.closedForWrite with
  | true =>
      rw [closeForWrite_of_closed hw]
      exact hs
  | false =>
      rw [closeForWrite_of_open hw]
      exact ⟨fun hf => absurd rfl hf, fun hp => absurd rfl hp⟩

theorem asks_closeForRead (hs : s.Asks m n) : s.closeForRead.1.Asks m n := by
  cases hr : s.closedForRead with
  | true =>
      rw [closeForRead_of_closed hr]
      exact hs
  | false =>
      rw [closeForRead_of_open hr]
      exact ⟨fun hf => absurd rfl hf, fun hp => absurd rfl hp⟩

/-! ### Calls that are refused, answered or have to wait -/

theorem asyncPrepare_of_busy (hp : s.writeInProgress = true) : (s.asyncPrepare x h).1 = s := by
  obtain ⟨_, heq, -⟩ | ⟨-, -, -, hfree, -⟩ | ⟨-, -, hfree, -⟩ :=
    asyncPrepare_cases (Prod.mk.eta (p := s.asyncPrepare x h)).symm
  · exact heq
  · rw [hp] at hfree
    cases hfree
  · rw [hp] at hfree
    cases hfree

theorem asyncFetch_of_busy (hp : s.readInProgress = true) : (s.asyncFetch x h).1 = s := by
  obtain ⟨_, heq, -⟩ | ⟨-, -, -, hfree, -⟩ | ⟨-, hfree, -⟩ :=
    asyncFetch_cases (Prod.mk.eta (p := s.asyncFetch x h)).symm
  · exact heq
  · rw [hp] at hfree
    cases hfree
  · rw [hp] at hfree
    cases hfree

theorem asyncPrepare_of_room (hw : s.closedForWrite = false) (hr : s.closedForRead = false)
    (hp : s.writeInProgress = false) (hx : x ≤ s.buffer.space) :
    s.asyncPrepare x h =
      ({ s with writeInProgress := true }, [.prepare h (.success s.buffer.prepare)]) := by
  have hmax : ¬ x > s.buffer.maxSize := by
    have hspace := s.buffer.toNat_space
    have hmax := s.buffer.toNat_maxSize
    rw [BitVec.le_def] at hx
    rw [gt_iff_lt, BitVec.lt_def]
    omega
  rw [asyncPrepare, if_neg hmax, if_neg (by simp [hw]), if_neg (by simp [hr]),
    if_neg (by simp [hp]), if_neg (BitVec.not_lt.2 hx)]

theorem asyncPrepare_of_short (hw : s.closedForWrite = false) (hr : s.closedForRead = false)
    (hp : s.writeInProgress = false) (hmax : x ≤ s.buffer.maxSize) (hx : s.buffer.space < x) :
    s.asyncPrepare x h =
      ({ s with
          writeInProgress := true
          minimumToPrepare := x
          prepareHandler := some h }, []) := by
  rw [asyncPrepare, if_neg (BitVec.not_lt.2 hmax), if_neg (by simp [hw]), if_neg (by simp [hr]),
    if_neg (by simp [hp]), if_pos hx]

theorem asyncFetch_of_short (hw : s.closedForWrite = false) (hr : s.closedForRead = false)
    (hp : s.readInProgress = false) (hmax : x ≤ s.buffer.maxSize) (hx : s.buffer.size < x) :
    s.asyncFetch x h =
      ({ s with
          readInProgress := true
          minimumToFetch := x
          fetchHandler := some h }, []) := by
  rw [asyncFetch, if_neg (BitVec.not_lt.2 hmax), if_neg (by simp [hr]), if_neg (by simp [hp]),
    if_pos hx, if_neg (by simp [hw])]

end AsyncCircularBufferStream

namespace Session

open AsyncCircularBufferStream

variable {k : ℕ} {c c' : Session k} {a : Act} {m n : SizeT} {acts : List Act}

/-- The reader waits for bytes and the writer waits for room. -/
def BothWait (c : Session k) : Prop :=
  c.stream.fetchHandler ≠ none ∧ c.stream.prepareHandler ≠ none

instance (c : Session k) : Decidable c.BothWait := inferInstanceAs (Decidable (_ ∧ _))

theorem step_asks (hc : c.stream.Asks m n) (ha : a.AsksAtMost m n) (h : c.step a = some c') :
    c'.stream.Asks m n := by
  cases a with
  | asyncPrepare x =>
      cases h
      exact asks_asyncPrepare hc ha rfl
  | asyncFetch x =>
      cases h
      exact asks_asyncFetch hc ha rfl
  | closeForWrite =>
      cases h
      exact asks_closeForWrite hc
  | closeForRead =>
      cases h
      exact asks_closeForRead hc
  | commit g x =>
      obtain ⟨-, ⟨s, cs⟩, hcommit, rfl⟩ := step_commit h
      exact asks_commit hc hcommit
  | consume g x =>
      obtain ⟨-, ⟨s, cs⟩, hconsume, rfl⟩ := step_consume h
      exact asks_consume hc hconsume
  | invoke x =>
      obtain ⟨-, rfl⟩ := step_invoke h
      exact hc
  | store g xs vs =>
      obtain ⟨-, rfl⟩ := step_store h
      exact hc

/-- A step that closes no side leaves two waiting handlers where they are: no view of the storage is
outstanding, so that nothing can be committed or consumed, and further calls are refused. -/
theorem step_bothWait (hs : c.stream.Sound c.writeGranted c.readGranted) (hc : c.BothWait)
    (ha : ¬ a.Closes) (h : c.step a = some c') : c'.BothWait := by
  obtain ⟨r, hf⟩ := Option.ne_none_iff_exists'.1 hc.1
  obtain ⟨w, hp⟩ := Option.ne_none_iff_exists'.1 hc.2
  obtain ⟨hreading, hrs⟩ := hs.of_fetchHandler hf
  obtain ⟨hwriting, hws⟩ := hs.of_prepareHandler hp
  have hnoWriter : ∀ g, g ∉ c.writeGrants := by
    intro g hg
    have hmem : g ∈ c.writeGranted := List.mem_append_right _ hg
    rw [hws] at hmem
    cases hmem
  have hnoReader : ∀ g, g ∉ c.readGrants := by
    intro g hg
    have hmem : g ∈ c.readGranted := List.mem_append_right _ hg
    rw [hrs] at hmem
    cases hmem
  cases a with
  | asyncPrepare x =>
      cases h
      unfold BothWait
      change (c.stream.asyncPrepare x _).1.fetchHandler ≠ none ∧
        (c.stream.asyncPrepare x _).1.prepareHandler ≠ none
      rw [asyncPrepare_of_busy hwriting]
      exact hc
  | asyncFetch x =>
      cases h
      unfold BothWait
      change (c.stream.asyncFetch x _).1.fetchHandler ≠ none ∧
        (c.stream.asyncFetch x _).1.prepareHandler ≠ none
      rw [asyncFetch_of_busy hreading]
      exact hc
  | closeForWrite => exact absurd trivial ha
  | closeForRead => exact absurd trivial ha
  | commit g x => exact absurd (step_commit h).1 (hnoWriter g)
  | consume g x => exact absurd (step_consume h).1 (hnoReader g)
  | invoke x =>
      obtain ⟨-, rfl⟩ := step_invoke h
      exact hc
  | store g xs vs => exact absurd (step_store h).1.1 (hnoWriter g)

/-- Two that wait for each other ask for more than there is room for. -/
theorem BothWait.asks {hk : k ≤ 30} {f p : SizeT} (hc : c.BothWait)
    (h : Run.Reachable step (init hk f p) c) (hasks : c.stream.Asks m n) :
    1 <<< k + 2 ≤ m.toNat + n.toNat := by
  have hs := sound h
  obtain ⟨r, hf⟩ := Option.ne_none_iff_exists'.1 hc.1
  obtain ⟨w, hp⟩ := Option.ne_none_iff_exists'.1 hc.2
  have hsize := BitVec.lt_def.1 (hs.fetchWaits r hf).2.2.1
  have hroom := BitVec.lt_def.1 (hs.prepareWaits w hp).2.2.1
  have hm := BitVec.le_def.1 (hasks.1 hc.1)
  have hn := BitVec.le_def.1 (hasks.2 hc.2)
  have hspace := c.stream.buffer.toNat_space
  have hle := c.stream.buffer.size_le_capacity
  omega

/-- The writer is given all of the room at once, commits `x` bytes, and nobody waits for them. -/
theorem exists_run_commit (hk : k ≤ 30) (f p x : SizeT) (hx : x.toNat ≤ 1 <<< k) :
    ∃ acts c b, (∀ a ∈ acts, Act.AsksAtMost m n a) ∧
      Run.run step (init (k := k) hk f p) acts = some c ∧ b.size.toNat = x.toNat ∧
      c.stream = { ofSizeLog2 (H := StreamCall) k hk f p with buffer := b } := by
  let s₀ : AsyncCircularBufferStream k StreamCall := .ofSizeLog2 k hk f p
  have hempty : s₀.buffer.size.toNat = 0 := by
    simp [s₀, ofSizeLog2, CircularBuffer.ofSizeLog2, CircularBuffer.start, CircularBuffer.size]
  obtain ⟨c₁, h₁, hstream₁, hpending₁, hgrants₁⟩ : ∃ c₁, step (init hk f p) (.asyncPrepare 0) =
      some c₁ ∧ c₁.stream = { s₀ with writeInProgress := true } ∧
      c₁.pending = [.prepare ⟨0, 0⟩ (.success s₀.buffer.prepare)] ∧ c₁.writeGrants = [] := by
    have hroom : s₀.asyncPrepare 0 ⟨0, 0⟩ = ({ s₀ with writeInProgress := true },
        [.prepare ⟨0, 0⟩ (.success s₀.buffer.prepare)]) :=
      asyncPrepare_of_room rfl rfl rfl (BitVec.le_def.2 (Nat.zero_le _))
    refine ⟨_, rfl, ?_, ?_, rfl⟩
    · exact congrArg Prod.fst hroom
    · exact congrArg Prod.snd hroom
  obtain ⟨c₂, h₂, hstream₂, hgrants₂⟩ : ∃ c₂,
      step c₁ (.invoke (.prepare ⟨0, 0⟩ (.success s₀.buffer.prepare))) = some c₂ ∧
      c₂.stream = c₁.stream ∧ c₂.writeGrants = [s₀.buffer.prepare] := by
    refine ⟨_, if_pos (by rw [hpending₁]; exact List.mem_singleton_self _), rfl, ?_⟩
    change c₁.writeGrants ++ _ = _
    rw [hgrants₁]
    rfl
  obtain ⟨b, hb⟩ : ∃ b, s₀.buffer.commit x = some b := by
    have hspace := s₀.buffer.toNat_space
    have hle : x ≤ s₀.buffer.space := by
      rw [BitVec.le_def]
      omega
    exact ⟨_, dif_pos hle⟩
  obtain ⟨c₃, h₃, hstream₃⟩ : ∃ c₃, step c₂ (.commit s₀.buffer.prepare x) = some c₃ ∧
      c₃.stream = { s₀ with buffer := b } := by
    have hcommit : c₂.stream.commit x = some ({ s₀ with buffer := b }, []) := by
      rw [hstream₂, hstream₁, commit, if_pos rfl]
      exact congrArg (Option.map _) hb
    refine ⟨_, (if_pos (by rw [hgrants₂]; exact List.mem_singleton_self _)).trans
      (congrArg (Option.map _) hcommit), rfl⟩
  refine ⟨[.asyncPrepare 0, .invoke (.prepare ⟨0, 0⟩ (.success s₀.buffer.prepare)),
    .commit s₀.buffer.prepare x], c₃, b, ?_, ?_, ?_, hstream₃⟩
  · intro a ha
    obtain rfl | rfl | rfl : a = .asyncPrepare 0 ∨
        a = .invoke (.prepare ⟨0, 0⟩ (.success s₀.buffer.prepare)) ∨
        a = .commit s₀.buffer.prepare x := by
      simpa using ha
    · exact BitVec.le_def.2 (Nat.zero_le _)
    · trivial
    · trivial
  · rw [Run.run_cons_of_step h₁, Run.run_cons_of_step h₂, Run.run_cons_of_step h₃, Run.run_nil]
  · rw [CircularBuffer.size_commit hb, hempty, Nat.zero_add]

/-- Two that ask for more than there is come to wait for each other. -/
theorem exists_run_bothWait {hk : k ≤ 30} {f p : SizeT} {b : CircularBuffer k}
    (hstream : c.stream = { ofSizeLog2 (H := StreamCall) k hk f p with buffer := b })
    (hm : m ≤ b.maxSize) (hmlt : b.size < m) (hn : n ≤ b.maxSize) (hnlt : b.space < n) :
    ∃ c', Run.run step c [.asyncFetch m, .asyncPrepare n] = some c' ∧ c'.BothWait := by
  obtain ⟨c₁, h₁, hstream₁⟩ : ∃ c₁, step c (.asyncFetch m) = some c₁ ∧
      c₁.stream = (c.stream.asyncFetch m ⟨c.calls.length, m⟩).1 := ⟨_, rfl, rfl⟩
  rw [hstream, asyncFetch_of_short rfl rfl rfl hm hmlt] at hstream₁
  have hbuffer : c₁.stream.buffer = b := by rw [hstream₁]
  have hwrite : c₁.stream.closedForWrite = false := by rw [hstream₁]; rfl
  have hread : c₁.stream.closedForRead = false := by rw [hstream₁]; rfl
  have hfree : c₁.stream.writeInProgress = false := by rw [hstream₁]; rfl
  have hfetch : c₁.stream.fetchHandler ≠ none := by
    rw [hstream₁]
    exact Option.some_ne_none _
  obtain ⟨c₂, h₂, hboth⟩ : ∃ c₂, step c₁ (.asyncPrepare n) = some c₂ ∧ c₂.BothWait := by
    refine ⟨_, rfl, ?_⟩
    change (c₁.stream.asyncPrepare n _).1.fetchHandler ≠ none ∧
      (c₁.stream.asyncPrepare n _).1.prepareHandler ≠ none
    rw [← hbuffer] at hn hnlt
    rw [asyncPrepare_of_short hwrite hread hfree hn hnlt]
    exact ⟨hfetch, Option.some_ne_none _⟩
  exact ⟨c₂, by rw [Run.run_cons_of_step h₁, Run.run_cons_of_step h₂, Run.run_nil], hboth⟩

/-- The writer commits so much that the room is a byte short of what it asks for next, and the
reader asks for more than that. -/
theorem mutual_wait_run (hk : k ≤ 30) (f p : SizeT) (hm : m.toNat ≤ 1 <<< k)
    (hn : n.toNat ≤ 1 <<< k) (hmn : 1 <<< k + 2 ≤ m.toNat + n.toNat) :
    ∃ acts c, (∀ a ∈ acts, Act.AsksAtMost m n a) ∧
      Run.run step (init (k := k) hk f p) acts = some c ∧ c.BothWait := by
  let x : SizeT := BitVec.ofNat 64 (1 <<< k + 1 - n.toNat)
  have hx : x.toNat = 1 <<< k + 1 - n.toNat := by
    have hcap := (CircularBuffer.ofSizeLog2 k hk).capacity_le
    rw [BitVec.toNat_ofNat]
    exact Nat.mod_eq_of_lt (by omega)
  obtain ⟨acts, c, b, hacts, hrun, hsize, hstream⟩ :=
    exists_run_commit (m := m) (n := n) hk f p x (by omega)
  have hspace := b.toNat_space
  have hmax := b.toNat_maxSize
  obtain ⟨c', hrun', hboth⟩ := exists_run_bothWait hstream (m := m) (n := n)
    (BitVec.le_def.2 (by omega)) (BitVec.lt_def.2 (by omega)) (BitVec.le_def.2 (by omega))
    (BitVec.lt_def.2 (by omega))
  refine ⟨acts ++ [.asyncFetch m, .asyncPrepare n], c', fun a ha => ?_, ?_, hboth⟩
  · obtain ha | ha := List.mem_append.1 ha
    · exact hacts a ha
    · obtain rfl | rfl : a = .asyncFetch m ∨ a = .asyncPrepare n := by simpa using ha
      · exact BitVec.le_def.2 le_rfl
      · exact BitVec.le_def.2 le_rfl
  · rw [Run.run_append_of_eq_some hrun, hrun']

end Session

/-- **Who waits for each other.**  Where fetches ask for `m` bytes at most and preparations for room
of `n` bytes at most, the two sides can come to wait for each other just if `m` and `n` are more
than the storage has by two at least. -/
theorem mutual_wait_iff {k : ℕ} (hk : k ≤ 30) (f p m n : SizeT) (hm : m.toNat ≤ 1 <<< k)
    (hn : n.toNat ≤ 1 <<< k) :
    (∃ acts c, (∀ a ∈ acts, Act.AsksAtMost m n a) ∧
      Run.run Session.step (Session.init (k := k) hk f p) acts = some c ∧ c.BothWait) ↔
      1 <<< k + 2 ≤ m.toNat + n.toNat := by
  constructor
  · rintro ⟨acts, c, hacts, hrun, hc⟩
    have hstart : (Session.init (k := k) hk f p).stream.Asks m n :=
      ⟨fun hf => absurd rfl hf, fun hp => absurd rfl hp⟩
    have hasks : c.stream.Asks m n :=
      Run.run_invariant_along (I := fun c => c.stream.Asks m n)
        (fun _ _ _ hc ha h => Session.step_asks hc ha h)
        (Run.along_of_forall (P := fun _ a => Act.AsksAtMost m n a) fun a ha _ => hacts a ha) hrun
        hstart
    exact hc.asks ⟨acts, hrun⟩ hasks
  · exact Session.mutual_wait_run hk f p hm hn

/-- A fetch of two bytes and a preparation of two, where there is room for two. -/
theorem mutual_wait_iff_two :
    ∃ acts c, (∀ a ∈ acts, Act.AsksAtMost 2 2 a) ∧
      Run.run Session.step (Session.init (k := 1) (by decide) 0 0) acts = some c ∧ c.BothWait :=
  (mutual_wait_iff (k := 1) (by decide) 0 0 2 2 (by decide) (by decide)).2 (by decide)

end Hittop
