/-
**A JSON value is settled by its text.**

`ValueParseVisitor` assigns to what it points to and has no other effect: the variables for the
elements, the members and the names are its own, and what stands in them before a value is parsed
has no bearing on the value.

Main definitions:

* `Hittop.Json.valueChange` — an assignment to `output_` on success;
* `Hittop.Json.commits` — an assignment on success, and nothing otherwise;
* `Hittop.Json.itemChanges`, `entryChanges`, `fieldChanges` — what is done inside arrays, objects
  and members.

Main results:

* `Hittop.Json.acts_value` — a parse of `Value` does an assignment that is settled by the text.
-/

import Hittop.Acting
import Hittop.Json.Recording

set_option relaxedAutoImplicit false
set_option autoImplicit false

namespace Hittop.Json

open Grammar Meaning

variable {δ : Type} (stod : List Byte → Except Fault δ)

/-! ### The changes of the variables -/

/-- On success an assignment to the value behind `output_`.  Where a parse fails, what has been
assigned on the way may remain there. -/
def valueChange : Verdict → Function.End (JsonParse δ) → Prop
  | .accept _, g => ∃ v, ∀ st, g st = { st with output := v }
  | _, g => ∃ k : JsonValue δ → JsonValue δ, ∀ st, g st = { st with output := k st.output }

/-- On success an assignment to the value behind `output_`, and nothing where a parse fails. -/
def commits : Verdict → Function.End (JsonParse δ) → Prop
  | .accept _, g => ∃ v, ∀ st, g st = { st with output := v }
  | _, g => g = 1

theorem commits.of_ne_accept {v : Verdict} {g : Function.End (JsonParse δ)}
    (hv : ∀ n, v ≠ .accept n) :
    commits v g ↔ g = 1 := by
  cases v with
  | accept n => exact absurd rfl (hv n)
  | incomplete => exact Iff.rfl
  | reject => exact Iff.rfl

namespace valueChange

variable {v : Verdict} {g g' : Function.End (JsonParse δ)}

theorem output (h : valueChange v g) :
    ∃ k : JsonValue δ → JsonValue δ, ∀ st, g st = { st with output := k st.output } := by
  cases v with
  | accept n =>
      obtain ⟨x, hx⟩ := h
      exact ⟨fun _ => x, hx⟩
  | incomplete => exact h
  | reject => exact h

theorem of_output (hv : ∀ n, v ≠ .accept n)
    (h : ∃ k : JsonValue δ → JsonValue δ, ∀ st, g st = { st with output := k st.output }) :
    valueChange v g := by
  cases v with
  | accept n => exact absurd rfl (hv n)
  | incomplete => exact h
  | reject => exact h

theorem one (hv : ∀ n, v ≠ .accept n) : valueChange v (1 : Function.End (JsonParse δ)) :=
  of_output hv ⟨id, fun _ => rfl⟩

theorem of_commits (v : Verdict) (g : Function.End (JsonParse δ)) (h : commits v g) :
    valueChange v g := by
  cases v with
  | accept n => exact h
  | incomplete => exact h ▸ one (by simp)
  | reject => exact h ▸ one (by simp)

theorem of_accept {n : ℕ} (h : valueChange (.accept n) g) : valueChange v g := by
  cases v with
  | accept m => exact h
  | incomplete => exact h.output
  | reject => exact h.output

theorem advance (h : valueChange v g) (n : ℕ) : valueChange (v.advance n) g := by
  cases v with
  | accept m => exact h
  | incomplete => exact h
  | reject => exact h

theorem mul (h : valueChange .reject g) (h' : valueChange v g') : valueChange v (g' * g) := by
  obtain ⟨k, hk⟩ := h
  cases v with
  | accept n =>
      obtain ⟨x, hx⟩ := h'
      refine ⟨x, fun st => ?_⟩
      change g' (g st) = _
      rw [hk, hx]
  | incomplete =>
      obtain ⟨k', hk'⟩ := h'
      refine ⟨k' ∘ k, fun st => ?_⟩
      change g' (g st) = _
      rw [hk, hk']
      rfl
  | reject =>
      obtain ⟨k', hk'⟩ := h'
      refine ⟨k' ∘ k, fun st => ?_⟩
      change g' (g st) = _
      rw [hk, hk']
      rfl

end valueChange

/-- Elements are added to those of an array. -/
def itemChanges (δ : Type) : Submonoid (Function.End (JsonParse δ)) where
  carrier := {g | ∃ l, ∀ st, g st = { st with items := st.items ++ l }}
  one_mem' := ⟨[], fun st => by rw [List.append_nil]; rfl⟩
  mul_mem' := by
    rintro a b ⟨l, ha⟩ ⟨l', hb⟩
    refine ⟨l' ++ l, fun st => ?_⟩
    change a (b st) = _
    rw [hb, ha, List.append_assoc]

/-- The entries of an object are changed. -/
def entryChanges (δ : Type) : Submonoid (Function.End (JsonParse δ)) where
  carrier := {g | ∃ k : List (List Byte × JsonValue δ) → List (List Byte × JsonValue δ),
    ∀ st, g st = { st with object := k st.object }}
  one_mem' := ⟨id, fun st => rfl⟩
  mul_mem' := by
    rintro a b ⟨k, ha⟩ ⟨k', hb⟩
    refine ⟨k ∘ k', fun st => ?_⟩
    change a (b st) = _
    rw [hb, ha]
    rfl

/-- The name of a member and the entries of its object are changed. -/
def fieldChanges (δ : Type) : Submonoid (Function.End (JsonParse δ)) where
  carrier := {g | ∃ k : List Byte × List (List Byte × JsonValue δ) →
      List Byte × List (List Byte × JsonValue δ),
    ∀ st, g st = { st with
      name := (k (st.name, st.object)).1, object := (k (st.name, st.object)).2 }}
  one_mem' := ⟨id, fun st => rfl⟩
  mul_mem' := by
    rintro a b ⟨k, ha⟩ ⟨k', hb⟩
    refine ⟨k ∘ k', fun st => ?_⟩
    change a (b st) = _
    rw [hb, ha]
    rfl

/-! ### The shapes of the rules -/

section Shapes

variable {S : Submonoid (Function.End (JsonParse δ))} {m : Meaning Byte (JsonParse δ)}
  {f : Recognizer Byte}

theorem acts_trimmed (h : Acts (within S) m) : Acts (within S) (m.trimmed octet) :=
  Acts.lift_within.seq (h.seq .lift_within)

theorem acts_separated (h : Acts (within S) m) (hm : Judges m f) :
    Acts (within S) (m.separated octet) := by
  have hturn : Judges ((Meaning.char octet ',').seq m) ((char octet ',').seq f) :=
    Keeps.lift.seq hm
  exact (h.seq ((Acts.lift_within.seq h).loop hturn.bounded)).opt

theorem acts_enclosed (first last : Char) (h : Acts (within S) m) :
    Acts (within S) (m.enclosed octet first last) :=
  acts_trimmed (Acts.lift_within.seq (h.seq .lift_within))

end Shapes

/-! ### The visitors -/

section Visitors

variable {m : Meaning Byte (JsonParse δ)} {v : Recognizer Byte}

theorem acts_assigned {g : Grammar} {value : List Byte → Except Fault (JsonValue δ)} :
    Acts commits (assigned g value) := by
  have hlift : Acts (fun _ g => g = 1) (lift (recognizer octet g) : Meaning Byte (JsonParse δ)) :=
    .lift fun _ => rfl
  refine hlift.locally ?_ ?_
  · rintro v g hv rfl
    exact (commits.of_ne_accept hv).2 rfl
  · rintro n g text rfl
    cases hvalue : value text with
    | error e => exact .inl ⟨e, fun st => rfl⟩
    | ok x => exact .inr ⟨fun st => { st with output := x }, ⟨x, fun st => rfl⟩, fun st => rfl⟩

/-- A value is handed over from a variable of its own. -/
theorem acts_parsedNext {S : Submonoid (Function.End (JsonParse δ))}
    {use : JsonValue δ → JsonParse δ → JsonParse δ} (h : Acts valueChange m)
    (huse : ∀ v, use v ∈ S) : Acts (within S) (parsedNext use m) := by
  refine h.locally ?_ ?_
  · intro v g hv hg
    obtain ⟨k, hk⟩ := hg.output
    have hsame : (fun st => { g { st with output := .null } with output := st.output }) =
        (1 : Function.End (JsonParse δ)) := by
      funext st
      rw [hk]
      rfl
    rw [hsame]
    exact S.one_mem
  · rintro n g text ⟨v, hg⟩
    refine .inr ⟨use v, huse v, fun st => ?_⟩
    rw [hg]

theorem acts_recordArray (h : Acts valueChange m) (hm : Judges m v) :
    Acts commits (recordArray m) := by
  have hitem : Acts (within (itemChanges δ))
      (parsedNext (fun v st => { st with items := st.items ++ [v] }) m) :=
    acts_parsedNext h fun v => ⟨[v], fun st => rfl⟩
  have hinside := acts_enclosed '[' ']'
    (acts_separated (acts_trimmed hitem) (judges_trimmed (Judges.locally hm)))
  refine hinside.locally ?_ ?_
  · rintro v g hv ⟨l, hg⟩
    refine (commits.of_ne_accept hv).2 ?_
    funext st
    rw [hg]
    rfl
  · rintro n g text ⟨l, hg⟩
    refine .inr ⟨fun st => { st with output := .array l }, ⟨.array l, fun st => rfl⟩, fun st => ?_⟩
    rw [hg]
    rfl

theorem acts_named : Acts (within (fieldChanges δ)) named := by
  have hlift : Acts (fun _ g => g = 1)
      (lift (recognizer octet StringContents) : Meaning Byte (JsonParse δ)) := .lift fun _ => rfl
  refine hlift.locally ?_ ?_
  · rintro v g hv rfl
    exact (fieldChanges δ).one_mem
  · rintro n g text rfl
    cases hname : unescapeUnsafe text with
    | error e => exact .inl ⟨e, fun st => rfl⟩
    | ok x => exact .inr ⟨fun st => { st with name := x }, ⟨fun k => (x, k.2), fun st => rfl⟩,
        fun st => rfl⟩

theorem acts_recordMember (h : Acts valueChange m) :
    Acts (within (entryChanges δ)) (recordMember m) := by
  have hvalue : Acts (within (fieldChanges δ))
      (parsedNext (fun v st => { st with object := emplace st.name v st.object }) m) :=
    acts_parsedNext h fun v => ⟨fun k => (k.1, emplace k.1 v k.2), fun st => rfl⟩
  have hinside : Acts (within (fieldChanges δ)) _ :=
    (acts_trimmed (acts_enclosed '"' '"' acts_named)).seq
      ((Acts.lift_within (f := char octet ':')).seq (acts_trimmed hvalue))
  refine hinside.locally ?_ ?_
  · rintro v g hv ⟨k, hg⟩
    refine ⟨fun o => (k ([], o)).2, fun st => ?_⟩
    change { g { st with name := [] } with name := st.name } = _
    rw [hg]
  · rintro n g text ⟨k, hg⟩
    refine .inr ⟨fun st => { st with object := (k ([], st.object)).2 },
      ⟨fun o => (k ([], o)).2, fun st => rfl⟩, fun st => ?_⟩
    rw [hg]

theorem acts_recordObject (h : Acts valueChange m) (hm : Judges m v) :
    Acts commits (recordObject m) := by
  have hinside := acts_enclosed '{' '}'
    (acts_separated (acts_recordMember h) (judges_recordMember hm))
  refine hinside.locally ?_ ?_
  · rintro v g hv ⟨k, hg⟩
    refine (commits.of_ne_accept hv).2 ?_
    funext st
    rw [hg]
    rfl
  · rintro n g text ⟨k, hg⟩
    refine .inr ⟨fun st => { st with output := .object (k []) }, ⟨.object (k []), fun st => rfl⟩,
      fun st => ?_⟩
    rw [hg]

/-- A string that is not closed leaves its contents behind. -/
theorem acts_quoted (first last : Char) (h : Acts valueChange m) :
    Acts valueChange (m.enclosed octet first last) := by
  have hlift {f : Recognizer Byte} {m : Meaning Byte (JsonParse δ)} (hm : Acts valueChange m) :
      Acts valueChange ((lift f).seq m) :=
    Acts.lift_seq (fun _ => valueChange.one) (fun _ _ n hg => hg.advance n) hm
  have hbehind {f : Recognizer Byte} {m : Meaning Byte (JsonParse δ)} (hm : Acts valueChange m) :
      Acts valueChange (m.seq (lift f)) :=
    Acts.seq_lift (fun _ _ _ hg => hg.of_accept) hm
  exact hlift (hbehind (hlift (hbehind h)))

theorem acts_recordValueOf (h : Acts valueChange m) (hm : Judges m v) :
    Acts valueChange (recordValueOf stod m) := by
  have halt {a b : Meaning Byte (JsonParse δ)} (ha : Acts valueChange a) (hb : Acts valueChange b) :
      Acts valueChange (a.alt b) := Acts.alt (fun _ _ _ hg hg' => hg.mul hg') ha hb
  have hcommits {m : Meaning Byte (JsonParse δ)} (hm : Acts commits m) : Acts valueChange m :=
    hm.mono valueChange.of_commits
  exact halt (acts_quoted '"' '"' (hcommits acts_assigned)) (halt (hcommits acts_assigned)
    (halt (hcommits (acts_recordObject h hm)) (halt (hcommits (acts_recordArray h hm))
      (halt (hcommits acts_assigned) (hcommits acts_assigned)))))

end Visitors

/-- **What a parse of `Value` does to the variables is settled by the text**: on success it assigns
a value, and has no other effect. -/
theorem acts_value : Acts valueChange (visiting stod .value Grammar.Value) := by
  have hunfolded (n : ℕ) :
      Acts valueChange (unfolding (recordValueOf stod) (lift Recognizer.pending) n) ∧
        Judges (unfolding (recordValueOf stod) (lift Recognizer.pending) n)
          (Recognizer.unfolded (valueOf octet) n) := by
    induction n with
    | zero => exact ⟨fun _ => .inr ⟨.incomplete, 1, ⟨id, fun _ => rfl⟩, fun _ => rfl⟩, .lift⟩
    | succ n ih => exact ⟨acts_recordValueOf stod ih.1 ih.2, judges_recordValueOf stod ih.2⟩
  intro s
  have hagree : AgreeTo (s.length + 1)
      (unfolding (recordValueOf stod) (lift Recognizer.pending) (s.length + 1))
      (visiting stod .value Grammar.Value) :=
    (guarded_recordValueOf stod).approximates (visiting_value_eq stod) _
  rw [← hagree s (Nat.lt_succ_self _)]
  exact (hunfolded (s.length + 1)).1 s

end Hittop.Json
