/-
**White space in front of a JSON value.**

Strings, numbers, objects and arrays read the white space in front of them and come to the same
value.  Two values do not.  `Null` is a token that is not trimmed, so that white space in front of
it is an error; and the visitor takes a boolean for `true` where the text that was accepted begins
with a `t`, and that text begins with the white space.

Main results:

* `Hittop.json_leading_space_iff` — when white space in front of a text makes no difference;
* `Hittop.json_leading_space_true` — ` true` is parsed as `false`.
-/

import Hittop.Json.Stability
import Hittop.Json.Taking

set_option relaxedAutoImplicit false
set_option autoImplicit false

namespace Hittop

namespace Json

open Exec Grammar Meaning

variable {δ σ : Type} {stod : List Byte → Except Fault δ} {w s y : List Byte} {c : Byte}

/-! ### What goes on as without the white space -/

/-- With `w` in front, an answer about `s` and the change of the state are the same. -/
def Shifts (w s : List Byte) (m : Meaning Byte σ) : Prop :=
  ∀ st v st', m s st = .ok (v, st') → v ≠ .incomplete → m (w ++ s) st =
    .ok (v.advance w.length, st')

namespace Shifts

variable {m m' : Meaning Byte σ}

theorem alt (h : Shifts w s m) (h' : Shifts w s m') : Shifts w s (m.alt m') := by
  intro st v st' hrun hv
  rcases alt_cases hrun with ⟨hm, hne⟩ | ⟨st₁, hm, hm'⟩
  · have hshift := h _ _ _ hm hv
    cases v with
    | accept n => exact alt_of_accept hshift
    | incomplete => exact absurd rfl hv
    | reject => exact absurd rfl hne
  · rw [alt_of_reject (h _ _ _ hm (by simp))]
    exact h' _ _ _ hm' hv

theorem trimmed (hw : ∀ c ∈ w, space octet c = true) : Shifts w s (m.trimmed octet) := by
  intro st v st' hrun hv
  have hspaces := Recognizer.stretch_apply (p := space octet) s
  have hspaces' := Recognizer.stretch_append_left (s := s) hw
  rw [hspaces, Verdict.advance_accept] at hspaces'
  have hfirst : lift (reading octet).spaces s st =
      .ok (.accept (s.takeWhile (space octet)).length, st) := by
    rw [lift_apply, spaces_eq, hspaces]
  have hfirst' : lift (reading octet).spaces (w ++ s) st =
      .ok (.accept (w.length + (s.takeWhile (space octet)).length), st) := by
    rw [lift_apply, spaces_eq, hspaces']
  rw [Meaning.trimmed, seq_of_accept hfirst, bind_ok_iff] at hrun
  obtain ⟨u, st₁, hrest, hend⟩ := hrun
  cases hend
  rw [Meaning.trimmed, seq_of_accept hfirst', ← List.drop_drop, List.drop_left, bind_of_ok hrest]
  simp

/-- A visitor that makes the same of the text with the white space in front. -/
theorem locally {before : σ → σ} {accepted : σ → List Byte → σ → Except Fault σ}
    {failed : σ → σ → σ} (h : Shifts w s m)
    (hsame : ∀ st n st₁, m s (before st) = .ok (.accept n, st₁) →
      accepted st (w ++ s.take n) st₁ = accepted st (s.take n) st₁) :
    Shifts w s (m.locally before accepted failed) := by
  intro st v st' hrun hv
  obtain ⟨st₁, hm, hst⟩ := finish_cases hrun
  have hm' := h _ _ _ hm hv
  rw [Meaning.locally, Meaning.finish, bind_of_ok hm']
  rcases hst with ⟨n, rfl, ha⟩ | ⟨hne, rfl⟩
  · have htext : (w ++ s).take (w.length + n) = w ++ s.take n := List.take_length_add_append n
    simp only [Verdict.advance_accept, htext, hsame st n st₁ hm, ha]
    rfl
  · cases v with
    | accept n => exact absurd rfl (hne n)
    | incomplete => exact absurd rfl hv
    | reject => rfl

end Shifts

/-! ### Booleans and `null` -/

/-- The text of a name of the grammar. -/
theorem prefix_of_token {x s : List Byte} (h : x.map octet <+: s.map octet) : x <+: s := by
  obtain ⟨l, hl, heq⟩ := List.prefix_map_iff.1 h
  rwa [(List.map_injective_iff.2 fun _ _ => octet_injective) heq]

theorem token_accept {x s : List Byte} {n : ℕ}
    (h : recognizer octet (.token (x.map octet)) s = .accept n) : n = x.length ∧ x <+: s := by
  obtain ⟨rfl, hprefix⟩ := Recognizer.text_eq_accept.1 h
  exact ⟨List.length_map _, prefix_of_token hprefix⟩

/-- A boolean whose text begins with a `t` is `true`, with nothing in front. -/
theorem true_of_head {n : ℕ} (h : recognizer octet Grammar.Boolean s = .accept n)
    (hhead : (s.take n).head?.map octet = some (ch 't')) : bytes "true" <+: s := by
  cases s with
  | nil => simp at hhead
  | cons c s =>
      have hpos := boolean_pos h
      have hc : octet c = ch 't' := by
        obtain ⟨n, rfl⟩ := Nat.exists_eq_succ_of_ne_zero hpos.ne'
        simpa using hhead
      have hspace : space octet c = false := by
        rw [space, hc]
        decide
      rw [recognizer_boolean] at h
      obtain ⟨a, b, ha, hb, rfl⟩ := Recognizer.seq_eq_accept.1 h
      rw [spaces_eq, Recognizer.stretch_apply, List.takeWhile_cons, hspace] at ha
      cases ha
      obtain ⟨d, e, hd, -, rfl⟩ := Recognizer.seq_eq_accept.1 hb
      rcases Recognizer.alt_eq_accept.1 hd with hd | ⟨-, hd⟩
      · exact (token_accept (x := bytes "true") hd).2
      · have hfalse := (token_accept (x := bytes "false") hd).2
        have hf : octet c = ch 'f' := by
          rw [← (List.cons_prefix_cons.1 hfalse).1]
          rfl
        rw [hc] at hf
        exact absurd hf (by decide)

theorem head_space {x : List Byte} (hw : ∀ c ∈ w, space octet c = true) (hne : w ≠ []) (n : ℕ) :
    ((w ++ x).take n).head?.map octet ≠ some (ch 't') := by
  cases w with
  | nil => exact absurd rfl hne
  | cons c w =>
      cases n with
      | zero => simp
      | succ n =>
          intro hhead
          have hc : octet c = ch 't' := by simpa using hhead
          have hspace := hw c List.mem_cons_self
          rw [space, hc] at hspace
          exact absurd hspace (by decide)

/-- The visitor takes a boolean for `false` unless its text begins with `true`. -/
theorem shifts_boolean (hw : ∀ c ∈ w, space octet c = true) (hne : w ≠ [])
    (hs : ¬ bytes "true" <+: s) : Shifts w s (assigned Grammar.Boolean fun text =>
      .ok (.boolean (text.head?.map octet = some (ch 't'))) : Meaning Byte (JsonParse δ)) := by
  have hlift : Shifts w s
      (lift (recognizer octet Grammar.Boolean) : Meaning Byte (JsonParse δ)) := by
    rw [recognizer_boolean, ← trimmed_lift]
    exact .trimmed hw
  refine hlift.locally fun st n st₁ hrun => ?_
  have hn : recognizer octet Grammar.Boolean s = .accept n := (Judges.verdict .lift hrun).symm
  have hhead : (s.take n).head?.map octet ≠ some (ch 't') := fun h => hs (true_of_head hn h)
  have hhead' := head_space (x := s.take n) hw hne (w ++ s.take n).length
  rw [List.take_length] at hhead'
  simp only [hhead', hhead]

theorem null_apply {n : ℕ} (h : recognizer octet Null s = .accept n) : bytes "null" <+: s :=
  (token_accept (x := bytes "null") h).2

/-- `Null` does not read white space. -/
theorem null_space (hw : ∀ c ∈ w, space octet c = true) (hne : w ≠ []) :
    recognizer octet Null (w ++ s) = .reject := by
  cases w with
  | nil => exact absurd rfl hne
  | cons c w =>
      refine null_reject fun hc => ?_
      have hspace := hw c List.mem_cons_self
      rw [space, hc] at hspace
      exact absurd hspace (by decide)

theorem shifts_null (hw : ∀ c ∈ w, space octet c = true) (hne : w ≠ [])
    (hs : ¬ bytes "null" <+: s) :
    Shifts w s (assigned Null fun _ => .ok .null : Meaning Byte (JsonParse δ)) := by
  refine Shifts.locally (fun st v st' hrun hv => ?_) fun _ _ _ _ => rfl
  cases hrun
  cases hnull : recognizer octet Null s with
  | accept n => exact absurd (null_apply hnull) hs
  | incomplete => exact absurd hnull hv
  | reject =>
      rw [lift_apply, null_space hw hne]
      rfl

theorem shifts_number (hstod : IgnoresSpace stod) (hw : ∀ c ∈ w, space octet c = true) :
    Shifts w s (assigned Number fun text => (stod text).map .number) := by
  have hlift : Shifts w s (lift (recognizer octet Number) : Meaning Byte (JsonParse δ)) := by
    rw [recognizer_number, ← trimmed_lift]
    exact .trimmed hw
  refine hlift.locally fun st n st₁ _ => ?_
  have hsame := hstod w (s.take n) [] (by simpa using hw)
  rw [List.append_nil] at hsame
  simp only [hsame]

/-- **A value goes on as without the white space**, unless it is `true` or `null`. -/
theorem shifts_value (hstod : IgnoresSpace stod) (hw : ∀ c ∈ w, space octet c = true) (hne : w ≠ [])
    (htrue : ¬ bytes "true" <+: s) (hnull : ¬ bytes "null" <+: s) :
    Shifts w s (visiting stod .value Grammar.Value) := by
  have hstring : Shifts w s ((assigned StringContents fun text =>
      (unescapeUnsafe text).map .string).enclosed octet '"' '"' : Meaning Byte (JsonParse δ)) :=
    .trimmed hw
  have hobject : Shifts w s (recordObject (visiting stod .value Grammar.Value)) :=
    (Shifts.trimmed hw).locally fun _ _ _ _ => rfl
  have harray : Shifts w s (recordArray (visiting stod .value Grammar.Value)) :=
    (Shifts.trimmed hw).locally fun _ _ _ _ => rfl
  rw [visiting_value_eq]
  exact hstring.alt ((shifts_number hstod hw).alt (hobject.alt (harray.alt
    ((shifts_boolean hw hne htrue).alt (shifts_null hw hne hnull)))))

/-! ### What becomes of `true` and `null` -/

/-- With white space in front, such a text is `false`, if anything. -/
theorem output_name (hw : ∀ c ∈ w, space octet c = true) (hne : w ≠ []) (hc : space octet c = false)
    (hdigit : Cctype.isdigit.test (octet c) = false)
    (hfirst : ∀ x ∈ ['"', '-', '{', '['], octet c ≠ ch x) {n : ℕ} {st st' : JsonParse δ}
    (hrun : visiting stod .value Grammar.Value (w ++ c :: y) st = .ok (.accept n, st')) :
    st'.output = .boolean false := by
  rw [visiting_value_name hw hc hdigit hfirst] at hrun
  rcases alt_cases hrun with ⟨hboolean, -⟩ | ⟨st₁, -, hnull⟩
  · rcases assigned_cases hboolean with ⟨m, x, -, -, hx, rfl⟩ | ⟨hno, -⟩
    · simp only [head_space hw hne m, decide_false] at hx
      cases hx
      rfl
    · exact absurd rfl (hno n)
  · have hverdict := judges_assigned.verdict hnull
    rw [null_space hw hne] at hverdict
    cases hverdict

end Json

/-- White space in front of a text makes no difference to the value, and is read along with it, if
and only if there is none or the text begins neither with `true` nor with `null`. -/
theorem json_leading_space_iff {δ : Type} {stod : List Byte → Except Fault δ}
    (hstod : IgnoresSpace stod) (w s : List Byte)
    (hw : ∀ c ∈ w, Cctype.isspace.test (octet c) = true) :
    (∀ p v, ParsesValue stod s (.success p) v →
      ParsesValue stod (w ++ s) (.success (w.length + p)) v) ↔
      w = [] ∨ ¬ (bytes "true" <+: s ∨ bytes "null" <+: s) := by
  constructor
  · intro h
    by_contra hnot
    obtain ⟨hne, hname⟩ := not_or.1 hnot
    -- `true` and `null` are taken, but with white space in front they can only become `false`.
    obtain ⟨c, y, v, rfl, hv, hspace, hdigit, hfirst, n, htakes⟩ : ∃ c y v, s = c :: y ∧
        v ≠ .boolean false ∧ Json.space octet c = false ∧ Cctype.isdigit.test (octet c) = false ∧
        (∀ x ∈ ['"', '-', '{', '['], octet c ≠ ch x) ∧
        ∃ n, Json.visiting stod .value Json.Grammar.Value s .init =
          .ok (.accept n, { JsonParse.init with output := v }) := by
      rcases not_not.1 hname with ⟨y, rfl⟩ | ⟨y, rfl⟩
      · refine ⟨Json.chr 't', bytes "rue" ++ y, .boolean true, rfl, by simp, by decide, by decide,
          Json.of_all (by decide), (bytes "true" ++ y.takeWhile (Json.space octet)).length, ?_⟩
        have htakes : Takes (Json.visiting stod .value Json.Grammar.Value) _ _ .init _ :=
          Json.takes_true y .init
        rwa [Takes, List.append_assoc, List.takeWhile_append_dropWhile] at htakes
      · exact ⟨Json.chr 'n', bytes "ull" ++ y, .null, rfl, by simp, by decide, by decide,
          Json.of_all (by decide), _, Json.takes_null y .init⟩
    obtain ⟨st, hst, hout⟩ := (Json.parsesValue_iff stod).1
      (h n v ((Json.parsesValue_iff stod).2 ⟨_, htakes, rfl⟩))
    exact hv (hout.symm.trans (Json.output_name hw hne hspace hdigit hfirst hst))
  · rintro (rfl | hname) p v hv
    · simpa using hv
    · by_cases hne : w = []
      · subst hne
        simpa using hv
      · obtain ⟨htrue, hnull⟩ := not_or.1 hname
        obtain ⟨st, hst, hout⟩ := (Json.parsesValue_iff stod).1 hv
        exact (Json.parsesValue_iff stod).2
          ⟨st, Json.shifts_value hstod hw hne htrue hnull _ _ _ hst (by simp), hout⟩

/-- A numeral with a blank in front. -/
theorem json_leading_space_iff_numeral :
    ¬ (bytes "true" <+: bytes "12 " ∨ bytes "null" <+: bytes "12 ") ∧ ∀ p v,
      ParsesValue (fun x => stoul (x.map octet)) (bytes "12 ") (.success p) v →
        ParsesValue (fun x => stoul (x.map octet)) (bytes " " ++ bytes "12 ")
          (.success (1 + p)) v := by
  have hname : ¬ (bytes "true" <+: bytes "12 " ∨ bytes "null" <+: bytes "12 ") := by decide
  exact ⟨hname, (json_leading_space_iff ignoresSpace_stoul (bytes " ") (bytes "12 ")
    (Json.of_all (by decide))).2 (.inr hname)⟩

/-- `true` with a blank in front. -/
theorem json_leading_space_true :
    ParsesValue (fun x => stoul (x.map octet)) (bytes "true") (.success 4) (.boolean true) ∧
      ¬ ParsesValue (fun x => stoul (x.map octet)) (bytes " " ++ bytes "true") (.success (1 + 4))
        (.boolean true) := by
  refine ⟨(Json.parsesValue_iff _).2 ⟨_, Json.takes_true [] .init, rfl⟩, fun h => ?_⟩
  obtain ⟨st, hst, hout⟩ := (Json.parsesValue_iff _).1 h
  have hfalse := Json.output_name (c := Json.chr 't') (y := bytes "rue")
    (Json.of_all (by decide)) (by decide) (by decide) (by decide) (Json.of_all (by decide)) hst
  rw [hfalse] at hout
  simp at hout

end Hittop
