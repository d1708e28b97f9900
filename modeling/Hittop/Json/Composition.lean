/-
**Arrays and objects are put together from their parts.**

Texts that `ParseValue` accepts in full may be put between brackets, with commas between them, and
the result is the array of their values; with names in front of them it is the object.  Every part
is read for itself, into a variable of its own, and again without a visitor; neither the parts
before it nor what follows has any bearing on its value.

Main definitions:

* `Hittop.Json.Part` — a text that `ParseValue` accepts in full;
* `Hittop.Json.Member` — a name and a part.

Main results:

* `Hittop.Json.takes_value` — a part is taken with its value, wherever it stands;
* `Hittop.Json.takes_separated` — parts with commas between them;
* `Hittop.json_compositional` — arrays and objects of parts.
-/

import Hittop.Json.Acting
import Hittop.Json.Stability
import Hittop.Json.Taking
import Hittop.Json.Unescaping

set_option relaxedAutoImplicit false
set_option autoImplicit false

namespace Hittop

namespace Json

open Grammar Meaning
open Recognizer (Reads)

variable {δ σ : Type} {stod : List Byte → Except Fault δ} {t x y : List Byte} {v : JsonValue δ}

/-! ### Parts -/

/-- `t` does not begin with white space, and `ParseValue` accepts it in full with the value `v`. -/
structure Part (stod : List Byte → Except Fault δ) (t : List Byte) (v : JsonValue δ) : Prop where
  dense : ∀ c ∈ t.head?, Cctype.isspace.test (octet c) = false
  parses : ParsesValue stod t (.success t.length) v

/-- Nothing more is read of what does not begin with white space. -/
theorem value_append (h : value octet t = .accept t.length) (hy : Dense y) :
    value octet (t ++ y) = .accept t.length := by
  obtain ⟨k, hk, -, hspace⟩ := extends_value.accepted t y _ h
  cases k with
  | zero => exact hk
  | succ k =>
      cases y with
      | nil =>
          have hle := Recognizer.le_length hk
          simp at hle
      | cons c y =>
          have hc := hspace c (by simp)
          rw [hy c rfl] at hc
          cases hc

/-- **A part is taken with its value**, wherever it stands. -/
theorem takes_value (hstod : IgnoresSpace stod) (h : Part stod t v) (hy : Dense y)
    (st : JsonParse δ) :
    Takes (visiting stod .value Grammar.Value) t y st { st with output := v } := by
  obtain ⟨st₁, hrun, hout⟩ := (parsesValue_iff stod).1 h.parses
  obtain ⟨g, ⟨u, hg⟩, hst₁, hall⟩ := (acts_value stod).of_run hrun
  have huv : u = v := by
    rw [← hout, ← hst₁, hg]
  have hvalue : value octet t = .accept t.length := ((judges_value stod).verdict hrun).symm
  rw [Takes, (persists_value hstod).of_ok (hall st) (by simp) y, value_append hvalue hy, hg, huv]

theorem Part.around (h : Part stod t v) (hy : Dense y) : Dense (t ++ y) := by
  cases t with
  | nil => exact hy
  | cons c t => exact dense_cons (h.dense c rfl)

/-- Nothing is taken where a comma or a closing bracket stands. -/
theorem refuses_value (hy : Begins closers y) (st : JsonParse δ) :
    Refuses (visiting stod .value Grammar.Value) y st st := by
  obtain ⟨c, hc, z, rfl⟩ := hy
  have hall : ∀ c ∈ closers, space octet c = false ∧ Cctype.isdigit.test (octet c) = false ∧
      (['"', '-', '{', '[', 't', 'f', 'n'].all fun x => decide (octet c ≠ ch x)) = true :=
    of_all (by decide)
  obtain ⟨hspace, hdigit, hne⟩ := hall c hc
  have hne' := of_all hne
  have hname : visiting stod .value Grammar.Value (c :: z) st = _ :=
    visiting_value_name (w := []) nofun hspace hdigit
      fun x hx => hne' x (List.mem_append_left ['t', 'f', 'n'] hx)
  rw [Refuses]
  refine hname.trans (Refuses.alt (refuses_assigned ?_) (refuses_assigned ?_))
  · exact boolean_reject hspace (hne' _ (by decide)) (hne' _ (by decide))
  · exact null_reject (hne' _ (by decide))

/-! ### Parts with commas between them -/

theorem takes_separated {ι : Type} {m : Meaning Byte σ} {f : Recognizer Byte}
    (text : ι → List Byte) (step : ι → σ → σ) (items : List ι) {d : Byte} {st : σ}
    (hm : Judges m f) (hd : d ∈ closers) (hcomma : octet d ≠ ch ',')
    (hrefuse : ∀ st, Refuses m (d :: y) st st)
    (htake : ∀ i ∈ items, ∀ z st, Begins closers z → Takes m (text i) z st (step i st)) :
    Takes (m.separated octet) ((bytes ",").intercalate (items.map text)) (d :: y) st
      (items.foldl (fun st i => step i st) st) := by
  have hend : Begins closers (d :: y) := ⟨d, hd, y, rfl⟩
  cases items with
  | nil => exact Takes.opt_nil (hrefuse st).seq_left
  | cons i items =>
      have hbounded : ((Meaning.char octet ',').seq m).Bounded :=
        Judges.bounded (Keeps.lift.seq hm)
      have hrest (z : List Byte) (xs : List ι) (hz : Begins closers z) :
          Begins closers (xs.flatMap (fun i => [chr ','] ++ text i) ++ z) := by
        cases xs with
        | nil => exact hz
        | cons i xs => exact ⟨chr ',', by decide, _, rfl⟩
      have hstop (st : σ) : Refuses ((Meaning.char octet ',').seq m) (d :: y) st st := by
        refine Refuses.seq_left (.lift ?_)
        rw [recognizer_lit]
        exact satisfy_reject (decide_eq_false hcomma)
      have hloop (st : σ) : Takes ((Meaning.char octet ',').seq m).loop
          (items.flatMap fun i => [chr ','] ++ text i) (d :: y) st
          (items.foldl (fun st i => step i st) st) :=
        Takes.loop_flatten (F := Begins closers) hbounded
        (fun i hi => ⟨by simp, fun z st hz => (takes_char ',' (by decide)).seq
          (htake i (List.mem_cons_of_mem _ hi) z st hz)⟩)
        (fun i _ z => ⟨chr ',', by decide, _, rfl⟩) hend hstop
      rw [List.map_cons, List.intercalate_cons_flatMap, List.flatMap_map, List.foldl_cons]
      exact Takes.opt ((htake i List.mem_cons_self _ st (hrest _ items hend)).seq (hloop _))

/-! ### Arrays -/

theorem takes_part (hstod : IgnoresSpace stod) (h : Part stod t v) (hy : Begins closers y)
    {use : JsonValue δ → JsonParse δ → JsonParse δ} (st : JsonParse δ) :
    Takes ((parsedNext use (visiting stod .value Grammar.Value)).trimmed octet) t y st
      (use v st) := by
  have hdense := hy.dense_of_closers
  have htakes : Takes (parsedNext use (visiting stod .value Grammar.Value)) t y st (use v st) :=
    Takes.locally (takes_value hstod h hdense _) rfl
  exact takes_tight htakes (h.around hdense) hdense

theorem refuses_part (hy : Begins closers y) {use : JsonValue δ → JsonParse δ → JsonParse δ}
    (st : JsonParse δ) :
    Refuses ((parsedNext use (visiting stod .value Grammar.Value)).trimmed octet) y st st :=
  refuses_around (w := []) nofun hy.dense_of_closers (Refuses.locally (refuses_value hy _) rfl)

/-- The text of an array. -/
def arrayText (texts : List (List Byte)) : List Byte :=
  bytes "[" ++ (bytes ",").intercalate texts ++ bytes "]"

theorem foldl_items (items : List (List Byte × JsonValue δ)) (st : JsonParse δ) :
    items.foldl (fun st i => { st with items := st.items ++ [i.2] }) st =
      { st with items := st.items ++ items.map Prod.snd } := by
  induction items generalizing st with
  | nil => rw [List.foldl_nil, List.map_nil, List.append_nil]
  | cons i items ih =>
      rw [List.foldl_cons, ih, List.map_cons, List.append_assoc, List.singleton_append]

/-- **An array of parts.** -/
theorem takes_array (hstod : IgnoresSpace stod) {items : List (List Byte × JsonValue δ)}
    (hitems : ∀ i ∈ items, Part stod i.1 i.2) (hy : Dense y) (st : JsonParse δ) :
    Takes (visiting stod .value Grammar.Value) (arrayText (items.map Prod.fst)) y st
      { st with output := .array (items.map Prod.snd) } := by
  have hlist : Takes (((parsedNext (fun v st => { st with items := st.items ++ [v] })
      (visiting stod .value Grammar.Value)).trimmed octet).separated octet)
      ((bytes ",").intercalate (items.map Prod.fst)) (chr ']' :: y) { st with items := [] } _ :=
    takes_separated Prod.fst (fun i st => { st with items := st.items ++ [i.2] }) items
      (judges_trimmed (Judges.locally (judges_value stod))) (by decide) (by decide)
      (fun st => refuses_part ⟨chr ']', by decide, y, rfl⟩ st)
      fun i hi z st hz => takes_part hstod (hitems i hi) hz st
  rw [foldl_items] at hlist
  have harray : Takes (recordArray (visiting stod .value Grammar.Value))
      (arrayText (items.map Prod.fst)) y st { st with output := .array (items.map Prod.snd) } :=
    Takes.locally (takes_enclosed (by decide) (by decide) (by decide) hlist hy) rfl
  have hbracket : visiting stod .value Grammar.Value (arrayText (items.map Prod.fst) ++ y) st = _ :=
    visiting_value_bracket (w := []) (c := chr '[') nofun (by decide) (by decide) (by decide)
      (by decide)
  have hobject : Refuses (recordObject (visiting stod .value Grammar.Value))
      (arrayText (items.map Prod.fst) ++ y) st st :=
    refuses_recordObject (w := []) (c := chr '[') nofun (by decide) (by decide)
  rw [Takes, hbracket]
  exact Takes.alt_right hobject harray.alt_left

/-! ### Objects -/

/-- A name, as it is spelled, and the text and the value of a part. -/
structure Member (δ : Type) where
  key : List StringChar
  text : List Byte
  value : JsonValue δ

/-- The text of a member. -/
def Member.spelled (m : Member δ) : List Byte :=
  bytes "\"" ++ stringText m.key ++ bytes "\"" ++ bytes ":" ++ m.text

/-- The text of an object. -/
def objectText (members : List (Member δ)) : List Byte :=
  bytes "\x7b" ++ (bytes ",").intercalate (members.map Member.spelled) ++ bytes "\x7d"

theorem takes_name {key : List StringChar} {name : List Byte}
    (hname : unescapeUnsafe (stringText key) = .ok name) (st : JsonParse δ) :
    Takes ((named.enclosed octet '"' '"').trimmed octet)
      (chr '"' :: (stringText key ++ [chr '"'])) (chr ':' :: y) st { st with name := name } := by
  have hcontents : Takes named (stringText key)
      (chr '"' :: chr ':' :: y) st { st with name := name } := by
    refine Takes.locally (.lift (reads_contents key)) ?_
    rw [hname]
    rfl
  have hcolon : Dense (chr ':' :: y) := dense_cons (by decide)
  have hquoted : Takes (named.enclosed octet '"' '"') (chr '"' :: (stringText key ++ [chr '"']))
      (chr ':' :: y) st { st with name := name } :=
    takes_enclosed (by decide) (by decide) (by decide) hcontents hcolon
  exact takes_tight hquoted (dense_cons (by decide)) hcolon

theorem takes_member (hstod : IgnoresSpace stod) {m : Member δ} {name : List Byte}
    (h : Part stod m.text m.value) (hname : unescapeUnsafe (stringText m.key) = .ok name)
    (hy : Begins closers y) (st : JsonParse δ) :
    Takes (recordMember (visiting stod .value Grammar.Value)) m.spelled y st
      { st with object := emplace name m.value st.object } := by
  have hspelled : m.spelled =
      (chr '"' :: (stringText m.key ++ [chr '"'])) ++ ([chr ':'] ++ m.text) := by
    rw [Member.spelled, List.append_assoc, List.append_assoc, List.append_assoc, List.cons_append,
      List.append_assoc]
    rfl
  rw [hspelled]
  have hvalue : Takes ((parsedNext (fun v st => { st with object := emplace st.name v st.object })
      (visiting stod .value Grammar.Value)).trimmed octet) m.text y { st with name := name }
      { st with name := name, object := emplace name m.value st.object } :=
    takes_part hstod h hy _
  exact Takes.locally ((takes_name hname _).seq ((takes_char ':' (by decide)).seq hvalue)) rfl

theorem refuses_member (hy : Begins closers y) (hquote : ∀ c ∈ y.head?, octet c ≠ ch '"')
    {m : Meaning Byte (JsonParse δ)} (st : JsonParse δ) : Refuses (recordMember m) y st st := by
  have hdense := hy.dense_of_closers
  obtain ⟨c, hc, z, rfl⟩ := hy
  have hname : Refuses (named.enclosed octet '"' '"') (c :: z) { st with name := [] }
      { st with name := [] } := refuses_enclosed (w := []) nofun (hdense c rfl) (hquote c rfl)
  have haround : Refuses ((named.enclosed octet '"' '"').trimmed octet) ([] ++ c :: z)
      { st with name := [] } { st with name := [] } := refuses_around nofun hdense hname
  exact Refuses.locally haround.seq_left rfl

/-! ### The entries of an object -/

/-- The entries after a number of insertions. -/
def emplaceAll (entries : List (List Byte × JsonValue δ)) (new : List (List Byte × JsonValue δ)) :
    List (List Byte × JsonValue δ) :=
  new.foldl (fun entries e => emplace e.1 e.2 entries) entries

theorem nodup_emplace {entries : List (List Byte × JsonValue δ)} (h : (entries.map Prod.fst).Nodup)
    (k : List Byte) (v : JsonValue δ) : ((emplace k v entries).map Prod.fst).Nodup := by
  rw [emplace]
  split_ifs with hmem
  · exact h
  · rw [List.map_append, List.map_singleton]
    exact List.nodup_append.2 ⟨h, by simp, fun a ha b hb => by
      rw [List.mem_singleton.1 hb]
      rintro rfl
      exact hmem ha⟩

theorem lookup_emplace (entries : List (List Byte × JsonValue δ)) (k : List Byte) (v : JsonValue δ)
    (x : List Byte) : (emplace k v entries).lookup x = (entries ++ [(k, v)]).lookup x := by
  rw [emplace]
  split_ifs with hmem
  · have hlast : ([(k, v)] : List (List Byte × JsonValue δ)).lookup x =
        if x == k then some v else none := by
      rw [List.lookup_cons, List.lookup_nil]
      cases x == k <;> rfl
    rw [List.lookup_append, hlast]
    by_cases hx : x = k
    · subst hx
      obtain ⟨e, he, hkey⟩ := List.mem_map.1 hmem
      have hsome : (entries.lookup x).isSome = true :=
        List.lookup_isSome_iff.2 ⟨e, he, by simpa using hkey.symm⟩
      obtain ⟨u, hu⟩ := Option.isSome_iff_exists.1 hsome
      rw [hu, Option.some_or]
    · have hne : (x == k) = false := by simpa using hx
      rw [hne, if_neg Bool.false_ne_true, Option.or_none]
  · rfl

theorem nodup_emplaceAll {entries : List (List Byte × JsonValue δ)}
    (h : (entries.map Prod.fst).Nodup) (new : List (List Byte × JsonValue δ)) :
    ((emplaceAll entries new).map Prod.fst).Nodup := by
  induction new generalizing entries with
  | nil => exact h
  | cons e new ih => exact ih (nodup_emplace h e.1 e.2)

/-- The first of the entries for a key remains. -/
theorem lookup_emplaceAll (entries new : List (List Byte × JsonValue δ)) (x : List Byte) :
    (emplaceAll entries new).lookup x = (entries ++ new).lookup x := by
  induction new generalizing entries with
  | nil => rw [List.append_nil]; rfl
  | cons e new ih =>
      change (emplaceAll (emplace e.1 e.2 entries) new).lookup x = _
      rw [ih, List.lookup_append, lookup_emplace, ← List.lookup_append, List.append_assoc]
      rfl

theorem foldl_entries (entries : List (List Byte × JsonValue δ)) (st : JsonParse δ) :
    entries.foldl (fun st e => { st with object := emplace e.1 e.2 st.object }) st =
      { st with object := emplaceAll st.object entries } := by
  induction entries generalizing st with
  | nil => rfl
  | cons e entries ih =>
      rw [List.foldl_cons, ih]
      rfl

/-- **An object of parts.** -/
theorem takes_object (hstod : IgnoresSpace stod) {members : List (Member δ)}
    {name : List StringChar → List Byte} (hname : ∀ k, unescapeUnsafe (stringText k) = .ok (name k))
    (hmembers : ∀ m ∈ members, Part stod m.text m.value) (hy : Dense y) (st : JsonParse δ) :
    Takes (visiting stod .value Grammar.Value) (objectText members) y st { st with
      output := .object (emplaceAll [] (members.map fun m => (name m.key, m.value))) } := by
  have hlist : Takes ((recordMember (visiting stod .value Grammar.Value)).separated octet)
      ((bytes ",").intercalate (members.map Member.spelled)) (chr '}' :: y)
      { st with object := [] } _ :=
    takes_separated Member.spelled
      (fun m st => { st with object := emplace (name m.key) m.value st.object }) members
      (judges_recordMember (judges_value stod)) (by decide) (by decide)
      (fun st => refuses_member ⟨chr '}', by decide, y, rfl⟩ (by
        rintro c hc
        obtain rfl : chr '}' = c := by simpa using hc
        decide) st)
      fun m hm z st hz => takes_member hstod (hmembers m hm) (hname m.key) hz st
  have hfold := foldl_entries (members.map fun m => (name m.key, m.value)) { st with object := [] }
  rw [List.foldl_map] at hfold
  rw [hfold] at hlist
  have hobject : Takes (recordObject (visiting stod .value Grammar.Value)) (objectText members) y st
      { st with output := .object (emplaceAll [] (members.map fun m => (name m.key, m.value))) } :=
    Takes.locally (takes_enclosed (by decide) (by decide) (by decide) hlist hy) rfl
  have hbracket : visiting stod .value Grammar.Value (objectText members ++ y) st = _ :=
    visiting_value_bracket (w := []) (c := chr '{') nofun (by decide) (by decide) (by decide)
      (by decide)
  rw [Takes, hbracket]
  exact hobject.alt_left

/-- What is taken to the end is a part again. -/
theorem part_of_takes {t : List Byte} {v : JsonValue δ}
    (hdense : ∀ c ∈ t.head?, Cctype.isspace.test (octet c) = false)
    (h : Takes (visiting stod .value Grammar.Value) t [] .init
      { JsonParse.init with output := v }) :
    Part stod t v := by
  rw [Takes, List.append_nil] at h
  exact ⟨hdense, (parsesValue_iff stod).2 ⟨_, h, rfl⟩⟩

end Json

/-- Texts that are accepted in full make up arrays and objects that are accepted in full, and are
parts of such texts again.  An array has their values in their order; an object maps the names to
the values, the first one where a name occurs more than once. -/
theorem json_compositional {δ : Type} {stod : List Byte → Except Fault δ}
    (hstod : IgnoresSpace stod) :
    (∀ items : List (List Byte × JsonValue δ), (∀ i ∈ items, Json.Part stod i.1 i.2) →
      Json.Part stod (Json.arrayText (items.map Prod.fst)) (.array (items.map Prod.snd))) ∧
    ∃ name : List Json.StringChar → List Byte,
      (∀ k, unescapeUnsafe (Json.stringText k) = .ok (name k)) ∧
      ∀ members : List (Json.Member δ), (∀ m ∈ members, Json.Part stod m.text m.value) →
        ∃ entries, Json.Part stod (Json.objectText members) (.object entries) ∧
          (entries.map Prod.fst).Nodup ∧
          ∀ x, entries.lookup x = (members.map fun m => (name m.key, m.value)).lookup x := by
  have hname := Json.unescape_stringText
  refine ⟨fun items hitems => ?_, fun k => k.flatMap Json.StringChar.written, hname,
    fun members hmembers => ?_⟩
  · refine Json.part_of_takes (fun c hc => ?_) (Json.takes_array hstod hitems Json.dense_nil _)
    obtain rfl : Json.chr '[' = c := Option.some.inj hc
    decide
  · refine ⟨Json.emplaceAll [] (members.map fun m =>
      (m.key.flatMap Json.StringChar.written, m.value)), ?_, ?_, fun x => ?_⟩
    · refine Json.part_of_takes (fun c hc => ?_)
        (Json.takes_object hstod hname hmembers Json.dense_nil _)
      obtain rfl : Json.chr '{' = c := Option.some.inj hc
      decide
    · exact Json.nodup_emplaceAll (show (List.map Prod.fst []).Nodup from List.nodup_nil) _
    · rw [Json.lookup_emplaceAll, List.nil_append]

/-- An array of two names. -/
theorem json_compositional_names :
    Json.Part (fun x => stoul (x.map octet)) (bytes "[true,null]")
      (.array [.boolean true, .null]) := by
  have htrue : Json.Part (fun x => stoul (x.map octet)) (bytes "true") (.boolean true) :=
    Json.part_of_takes (fun c hc => by
      obtain rfl : Json.chr 't' = c := Option.some.inj hc
      decide) (Json.takes_true [] _)
  have hnull : Json.Part (fun x => stoul (x.map octet)) (bytes "null") .null :=
    Json.part_of_takes (fun c hc => by
      obtain rfl : Json.chr 'n' = c := Option.some.inj hc
      decide) (Json.takes_null [] _)
  refine (json_compositional ignoresSpace_stoul).1
    [(bytes "true", .boolean true), (bytes "null", .null)] fun i hi => ?_
  rcases List.mem_cons.1 hi with rfl | hi
  · exact htrue
  · rw [List.mem_singleton.1 hi]
    exact hnull

end Hittop
