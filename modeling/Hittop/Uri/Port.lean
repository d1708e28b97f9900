/-
**The port of a URI.**

The rule `port` is `*digit`, and its text goes through `std::stoul` and a conversion to `unsigned`.
The visitor is called with `port` at most once in a parse.  What follows says which text that is,
for every input of the two entry points, and what comes out of the conversion: the value of the
digits, where there are any and their value is below `2 ^ 32`, and an exception or another value
elsewhere.

Main definitions:

* `Hittop.referencePort`, `Hittop.requestPort` — the text that the rule `port` accepts in a parse;
* `Hittop.PortExact` — the parse returns, and the port is exact or left unset.

Main results:

* `Hittop.Ports.seq_left`, … — how the text of the port goes through the combinators;
* `Hittop.port_exact_iff` — the port is exact exactly for texts of digits with a value below `2 ^
  32`.
-/

import Hittop.Http.Recording
import Hittop.Uri.Reading
import Mathlib.Data.List.TakeWhile

set_option relaxedAutoImplicit false
set_option autoImplicit false

namespace Hittop

open Uri.Grammar Meaning Exec

variable {κ σ : Type}

/-! ### `std::stoul` on digits -/

theorem stoul_of_digits {d : List ℤ} (h : ∀ c ∈ d, Cctype.test .isdigit c = true) :
    stoul d = if d = [] then .error .invalidArgument
      else if unsignedLongSize ≤ decimal d then .error .outOfRange else .ok (decimal d) := by
  have hspace : d.dropWhile (Cctype.test .isspace) = d := by
    cases d with
    | nil => rfl
    | cons c d =>
        have hc := h c (by simp)
        have hno : Cctype.test .isspace c = false := by
          rw [Cctype.isdigit_iff] at hc
          rw [← Bool.not_eq_true, Cctype.isspace_iff]
          omega
        rw [List.dropWhile_cons, hno]
        rfl
  have hhead : ∀ x : Char, Cctype.test .isdigit (ch x) = false → d.head? ≠ some (ch x) := by
    intro x hx he
    obtain ⟨d', rfl⟩ : ∃ d', d = ch x :: d' := by
      cases d with
      | nil => cases he
      | cons c d' => exact ⟨d', by simpa using he⟩
    rw [h (ch x) (by simp)] at hx
    cases hx
  have hdigits : d.takeWhile (Cctype.test .isdigit) = d := List.takeWhile_eq_self_iff.2 h
  have hminus := hhead '-' (by decide)
  have hplus := hhead '+' (by decide)
  simp only [stoul, hspace, hminus, hplus, decide_false, Bool.or_false, Bool.false_eq_true,
    if_false, hdigits]

/-! ### The text of the port, through the combinators -/

/-- A run from `st` ends in the verdict `v`: the text `p` goes through `std::stoul` to the port, if
there is one, and otherwise the port is left alone. -/
def Converts (toInt : κ → ℤ) (port : σ → Option ℕ) (p : Option (List κ)) (st : σ) (v : Verdict)
    (x : Except Fault (Verdict × σ)) : Prop :=
  match p with
  | none => ∃ st', x = .ok (v, st') ∧ port st' = port st
  | some d => match stoul (d.map toInt) with
    | .error e => x = .error e
    | .ok n => ∃ st', x = .ok (v, st') ∧ port st' = some (n % unsignedSize)

/-- Every run of the parse ends in the verdict of `f` and converts the text `p`. -/
def Ports (toInt : κ → ℤ) (port : σ → Option ℕ) (m : Meaning κ σ) (f : Recognizer κ)
    (p : List κ → Option (List κ)) : Prop :=
  ∀ s st, Converts toInt port (p s) st (f s) (m s st)

/-- What happens after the conversion may change all but the port. -/
theorem Converts.mono {toInt : κ → ℤ} {port : σ → Option ℕ} {p : Option (List κ)} {st : σ}
    {v w : Verdict} {x y : Except Fault (Verdict × σ)} (h : Converts toInt port p st v x)
    (herror : ∀ e, x = .error e → y = .error e)
    (hok : ∀ st₁, x = .ok (v, st₁) → ∃ st', y = .ok (w, st') ∧ port st' = port st₁) :
    Converts toInt port p st w y := by
  unfold Converts at h ⊢
  cases p with
  | none =>
      obtain ⟨st₁, hx, hport⟩ := h
      obtain ⟨st', hy, hport'⟩ := hok st₁ hx
      exact ⟨st', hy, hport'.trans hport⟩
  | some d =>
      cases hd : stoul (d.map toInt) with
      | error e =>
          simp only [hd] at h ⊢
          exact herror e h
      | ok n =>
          simp only [hd] at h ⊢
          obtain ⟨st₁, hx, hport⟩ := h
          obtain ⟨st', hy, hport'⟩ := hok st₁ hx
          exact ⟨st', hy, hport'.trans hport⟩

namespace Ports

variable {toInt : κ → ℤ} {port : σ → Option ℕ} {m m' : Meaning κ σ} {f f' : Recognizer κ}
  {p p' : List κ → Option (List κ)}

/-- In a sequence, the port may be in the first part. -/
theorem seq_left (h : Ports toInt port m f p) (h' : Silent port m' f') :
    Ports toInt port (m.seq m') (f.seq f') p :=
  fun s st => (h s st).mono (fun _ he => seq_of_error he) fun _ hm => h'.seq_run hm

/-- In a sequence, the port may be in the second part. -/
theorem seq_right (h : Silent port m f) (h' : Ports toInt port m' f' p') :
    Ports toInt port (m.seq m') (f.seq f') (f.after p') := by
  intro s st
  obtain ⟨st₁, hm, hport⟩ := h s st
  cases hf : f s with
  | accept n =>
      rw [hf] at hm
      rw [Recognizer.after_of_accept hf, Recognizer.seq_of_accept hf]
      have hrest : Converts toInt port (p' (s.drop n)) st (f' (s.drop n)) (m' (s.drop n) st₁) := by
        have := h' (s.drop n) st₁
        unfold Converts at this ⊢
        rwa [hport] at this
      refine hrest.mono (fun e he => ?_) fun st' hm' => ⟨st', seq_ok hm hm', rfl⟩
      rw [seq_of_accept hm, bind_of_error he]
  | incomplete =>
      rw [hf] at hm
      rw [Recognizer.after_of_incomplete hf]
      exact ⟨st₁, by rw [seq_of_incomplete hm, Recognizer.seq_of_incomplete hf], hport⟩
  | reject =>
      rw [hf] at hm
      rw [Recognizer.after_of_reject hf]
      exact ⟨st₁, by rw [seq_of_reject hm, Recognizer.seq_of_reject hf], hport⟩

/-- In a choice, a port that was converted settles the choice. -/
theorem alt (h : Ports toInt port m f p) (h' : Ports toInt port m' f' p')
    (hp : f.Commits p) :
    Ports toInt port (m.alt m') (f.alt f') fun s => if f s = .reject then p' s else p s := by
  intro s st
  by_cases hf : f s = .reject
  · have hs := h s st
    rw [hp s hf, hf] at hs
    obtain ⟨st₁, hm, hport⟩ := hs
    have hs' := h' s st₁
    simp only [hf, if_true, Recognizer.alt_of_reject hf, alt_of_reject hm]
    unfold Converts at hs' ⊢
    rwa [hport] at hs'
  · simp only [hf, if_false, Recognizer.alt_of_ne_reject hf]
    refine (h s st).mono (fun e he => alt_of_error he) fun st₁ hm => ⟨st₁, ?_, rfl⟩
    cases hfs : f s with
    | accept n => exact alt_of_accept (hfs ▸ hm)
    | incomplete => exact alt_of_incomplete (hfs ▸ hm)
    | reject => exact absurd hfs hf

theorem congr (h : Ports toInt port m f p) (hp : ∀ s, p s = p' s) : Ports toInt port m f p' :=
  (funext hp : p = p') ▸ h

/-- A choice whose second alternative is not concerned with the port. -/
theorem alt_left (h : Ports toInt port m f p) (h' : Silent port m' f')
    (hp : f.Commits p) : Ports toInt port (m.alt m') (f.alt f') p := by
  have h₀ : Ports toInt port m' f' fun _ => none := fun s st => h' s st
  refine (h.alt h₀ hp).congr fun s => ?_
  by_cases hf : f s = .reject
  · simp [hf, hp s hf]
  · simp [hf]

/-- A choice whose first alternative is not concerned with the port. -/
theorem alt_right (h : Silent port m f) (h' : Ports toInt port m' f' p') :
    Ports toInt port (m.alt m') (f.alt f') fun s => if f s = .reject then p' s else none := by
  have h₀ : Ports toInt port m f fun _ => none := fun s st => h s st
  exact h₀.alt h' (Recognizer.commits_none _)

theorem opt (h : Ports toInt port m f p) (hp : f.Commits p) :
    Ports toInt port m.opt f.opt p := h.alt_left (Silent.lift .eps) hp

/-- What is done with the verdict does not change the port. -/
theorem finish (h : Ports toInt port m f p) {accepted : List κ → σ → σ} {failed : σ → σ}
    (ha : ∀ text st, port (accepted text st) = port st) (hf : ∀ st, port (failed st) = port st) :
    Ports toInt port (m.finish (fun text st => .ok (accepted text st)) failed) f p := by
  intro s st
  refine (h s st).mono (fun e he => ?_) fun st₁ hm => ?_
  · rw [Meaning.finish, bind_of_error he]
  · rw [Meaning.finish, bind_of_ok hm]
    cases f s with
    | accept n => exact ⟨accepted (s.take n) st₁, rfl, ha _ _⟩
    | incomplete => exact ⟨failed st₁, rfl, hf _⟩
    | reject => exact ⟨failed st₁, rfl, hf _⟩

/-- What is done before the parse does not change the port. -/
theorem after (h : Ports toInt port m f p) {before : σ → σ}
    (hb : ∀ st, port (before st) = port st) : Ports toInt port (m.after before) f p := by
  intro s st
  have hs := h s (before st)
  unfold Converts at hs ⊢
  rwa [hb st] at hs

/-- Working on a part of a larger state. -/
theorem through {τ : Type} (q : Pointer τ σ) (h : Ports toInt port m f p) :
    Ports toInt (fun t => port (q.get t)) (m.through q) f p := by
  intro s t
  have hs := h s (q.get t)
  unfold Converts at hs ⊢
  cases hp : p s with
  | none =>
      simp only [hp] at hs ⊢
      obtain ⟨st', hm, hport⟩ := hs
      exact ⟨q.set st' t, by simp only [Meaning.through, Exec.through, hm], by simp [hport]⟩
  | some d =>
      simp only [hp] at hs ⊢
      cases hd : stoul (d.map toInt) with
      | error e =>
          simp only [hd] at hs ⊢
          simp only [Meaning.through, Exec.through, hs]
      | ok n =>
          simp only [hd] at hs ⊢
          obtain ⟨st', hm, hport⟩ := hs
          exact ⟨q.set st' t, by simp only [Meaning.through, Exec.through, hm], by simp [hport]⟩

end Ports

/-! ### The text of the port in a parse -/

section Text

variable (toInt : κ → ℤ)

/-- After `authority` has begun: the port of `[userinfo "@"] host ":" port`. -/
def authorityPort : List κ → Option (List κ) :=
  (recognizer toInt (.opt userinfo_at)).after ((recognizer toInt host).after
    ((recognizer toInt (lit ':')).after (recognizer toInt port).textOf))

/-- The text that the rule `port` accepts in a parse of a `URI_reference`. -/
def referencePort (s : List κ) : Option (List κ) :=
  (inAbsoluteURI toInt (authorityPort toInt) s).or (inNetPath toInt (authorityPort toInt) s)

/-- The text that the rule `port` accepts in a parse of a `Request_URI`.  The authority form is the
last alternative. -/
def targetPort (s : List κ) : Option (List κ) :=
  ((inNetPath toInt (authorityPort toInt) s).or (inAbsoluteURI toInt (authorityPort toInt) s)).or
    (if recognizer toInt Http.Grammar.Star s = .reject ∧ recognizer toInt absoluteURI s = .reject ∧
        recognizer toInt abs_path s = .reject then authorityPort toInt s else none)

/-- The text that the rule `port` accepts in a parse of a request. -/
def requestPort : List κ → Option (List κ) :=
  (recognizer toInt Http.Grammar.Method).after
    ((recognizer toInt Http.Grammar.SP).after (targetPort toInt))

end Text

/-! ### The port in the parse of a URI -/

section Record

variable (toInt : κ → ℤ)

theorem portFree : PathFree (Uri.port : Uri κ → Option ℕ) where
  path _ _ := rfl
  segments _ := rfl
  segment _ _ := rfl

theorem ports_port : Ports toInt Uri.port (recordPort toInt) (recognizer toInt port)
    (recognizer toInt port).textOf := by
  intro s u
  unfold Converts recordPort
  rw [unrecorded, Meaning.finish, Meaning.lift, pure_bind, Recognizer.textOf]
  cases recognizer toInt port s with
  | accept n =>
      simp only
      cases stoul ((s.take n).map toInt) with
      | error e => rfl
      | ok k => exact ⟨_, rfl, rfl⟩
  | incomplete => exact ⟨u, rfl, rfl⟩
  | reject => exact ⟨u, rfl, rfl⟩

theorem ports_hostport : Ports toInt Uri.port (recordHostport toInt Meaning.alt)
    (recognizer toInt hostport) ((recognizer toInt host).after
      ((recognizer toInt (lit ':')).after (recognizer toInt port).textOf)) := by
  rw [hostport, recognizer_pair, recognizer_opt, recognizer_pair]
  refine Ports.seq_right (Silent.record fun _ _ => rfl) (Ports.opt ?_ ?_)
  · exact Ports.seq_right (Silent.lift _) (ports_port toInt)
  · exact (Recognizer.commits_textOf _).seq

theorem commits_hostport : (recognizer toInt hostport).Commits
    ((recognizer toInt host).after ((recognizer toInt (lit ':')).after
      (recognizer toInt port).textOf)) := by
  rw [hostport, recognizer_pair]
  exact ((Recognizer.lenient_opt _).commits _).seq

theorem ports_authority : Ports toInt Uri.port (recordAuthority toInt Meaning.alt)
    (recognizer toInt authority) (authorityPort toInt) := by
  rw [authority, recognizer_choice, server, recognizer_opt, recognizer_pair]
  have huser : Silent Uri.port (optionally Meaning.alt (recordUserinfoAt toInt))
      (recognizer toInt (.opt userinfo_at)) :=
    silent_optionally isChoice_alt (silent_userinfoAt toInt (fun _ _ => rfl) fun _ => rfl)
  have hinner := Ports.seq_right huser (ports_hostport toInt)
  have hcommits := (commits_hostport toInt).seq (f := recognizer toInt (.opt userinfo_at))
  exact (hinner.opt hcommits).alt_left (Silent.lift _) ((Recognizer.lenient_opt _).commits _)

theorem ports_netPath : Ports toInt Uri.port (recordNetPath toInt Meaning.alt)
    (recognizer toInt net_path) (inNetPath toInt (authorityPort toInt)) := by
  rw [net_path, recognizer_concat, recognizer_concat, recognizer_pair, recognizer_opt]
  exact Ports.seq_right (Silent.lift _) (Ports.seq_right (Silent.lift _)
    ((ports_authority toInt).seq_left
      (silent_optionally isChoice_alt (silent_absPath toInt portFree))))

theorem ports_hierPart : Ports toInt Uri.port (recordHierPart toInt Meaning.alt)
    (recognizer toInt hier_part) (inNetPath toInt (authorityPort toInt)) := by
  rw [hier_part, recognizer_pair, recognizer_choice]
  exact ((ports_netPath toInt).alt_left (silent_absPath toInt portFree)
    (commits_netPath toInt _)).seq_left (silent_ledIn toInt isChoice_alt '?' query fun _ _ => rfl)

theorem ports_absoluteURI : Ports toInt Uri.port (recordAbsoluteURI toInt Meaning.alt)
    (recognizer toInt absoluteURI) (inAbsoluteURI toInt (authorityPort toInt)) := by
  rw [absoluteURI, recognizer_concat, recognizer_pair, recognizer_choice]
  exact Ports.seq_right (Silent.record fun _ _ => by rfl) (Ports.seq_right (Silent.lift _)
    ((ports_hierPart toInt).alt_left (Silent.lift _) (commits_hierPart toInt _)))

theorem ports_relativeURI : Ports toInt Uri.port (recordRelativeURI toInt Meaning.alt)
    (recognizer toInt relativeURI) (inNetPath toInt (authorityPort toInt)) := by
  rw [relativeURI, recognizer_pair, recognizer_either, recognizer_choice]
  have hpath := (silent_absPath toInt portFree).alt (silent_relPath toInt portFree isChoice_alt)
  exact ((ports_netPath toInt).alt_left hpath (commits_netPath toInt _)).seq_left
    (silent_ledIn toInt isChoice_alt '?' query fun _ _ => rfl)

theorem ports_reference : Ports toInt Uri.port (recordReference toInt Meaning.alt)
    (recognizer toInt URI_reference) (referencePort toInt) := by
  rw [URI_reference, recognizer_pair, recognizer_opt, recognizer_choice]
  have hchoice : Ports toInt Uri.port
      ((recordAbsoluteURI toInt Meaning.alt).alt (recordRelativeURI toInt Meaning.alt))
      ((recognizer toInt absoluteURI).alt (recognizer toInt relativeURI))
        (referencePort toInt) := by
    refine ((ports_absoluteURI toInt).alt (ports_relativeURI toInt)
      (commits_absoluteURI toInt _)).congr fun s => ?_
    by_cases hs : recognizer toInt absoluteURI s = .reject
    · simp [referencePort, hs, commits_absoluteURI toInt _ s hs]
    · simp [referencePort, hs, inNetPath_eq_none hs]
  have hcommits : ((recognizer toInt absoluteURI).alt (recognizer toInt relativeURI)).Commits
      (referencePort toInt) := by
    intro s hs
    by_cases habs : recognizer toInt absoluteURI s = .reject
    · rw [Recognizer.alt_of_reject habs] at hs
      simp [referencePort, commits_absoluteURI toInt _ s habs, commits_relativeURI toInt _ s hs]
    · rw [Recognizer.alt_of_ne_reject habs] at hs
      exact absurd hs habs
  exact (hchoice.opt hcommits).seq_left
    (silent_ledIn toInt isChoice_alt '#' fragment fun _ _ => rfl)

theorem ports_requestURI : Ports toInt Uri.port (recordRequestURI toInt Meaning.alt)
    (recognizer toInt Http.Grammar.Request_URI) (targetPort toInt) := by
  rw [Http.Grammar.Request_URI, recognizer_either, recognizer_either, recognizer_either,
    recognizer_choice, recognizer_pair]
  have hlast := Ports.alt_right (silent_absPath toInt portFree) (ports_authority toInt)
  have habsolute := (ports_absoluteURI toInt).alt hlast (commits_absoluteURI toInt _)
  have hstar := Ports.alt_right (Silent.lift (recognizer toInt Http.Grammar.Star)) habsolute
  have hfragment : Silent Uri.port (recordFragment toInt Meaning.alt)
      (recognizer toInt (.opt (.concat [lit '#', fragment]))) :=
    silent_ledIn toInt isChoice_alt '#' fragment fun _ _ => rfl
  have hfirst := (ports_hierPart toInt).seq_left hfragment
  have hopt : (recognizer toInt (.opt (.concat [lit '#', fragment]))).Lenient :=
    Recognizer.lenient_opt _
  refine (hfirst.alt hstar ((commits_hierPart toInt _).seq_lenient hopt)).congr fun s => ?_
  simp only [Recognizer.seq_eq_reject_iff hopt, targetPort]
  by_cases hhier : recognizer toInt hier_part s = .reject
  · simp only [hhier, if_true, commits_hierPart toInt _ s hhier, Option.none_or]
    by_cases hs : recognizer toInt Http.Grammar.Star s = .reject
    · by_cases ha : recognizer toInt absoluteURI s = .reject
      · simp [hs, ha, commits_absoluteURI toInt _ s ha]
      · simp [hs, ha]
    · simp [hs, inAbsoluteURI_eq_none (x := '*') (by decide) hs]
  · have hslash : recognizer toInt abs_path s ≠ .reject := fun h => hhier (hierPart_reject h)
    have hnone := inAbsoluteURI_eq_none (p := authorityPort toInt) (x := '/') (by decide)
      fun h => hslash (absPath_eq_reject_iff.2 h)
    simp [hhier, hslash, hnone]

end Record

/-! ### The port in the parse of a request -/

section Request

variable (toInt : κ → ℤ)

/-- The port of the target. -/
def RequestParse.port (st : RequestParse κ) : Option ℕ := st.request.uri.port

theorem recordHttpMethod_port (text : List κ) (st : RequestParse κ) :
    (recordHttpMethod toInt text st).port = st.port := by
  unfold recordHttpMethod
  split <;> rfl

theorem recordMajorVersion_port (text : List κ) (st : RequestParse κ) :
    (recordMajorVersion toInt text st).port = st.port := by
  unfold recordMajorVersion
  split <;> rfl

theorem recordMinorVersion_port (text : List κ) (st : RequestParse κ) :
    (recordMinorVersion toInt text st).port = st.port := by
  unfold recordMinorVersion
  split <;> rfl

theorem silent_method : Silent RequestParse.port (recordMethod toInt)
    (recognizer toInt Http.Grammar.Method) := by
  rw [Http.Grammar.Method, recognizer_choice]
  exact (Silent.record (recordHttpMethod_port toInt)).alt (Silent.lift _)

theorem ports_target : Ports toInt RequestParse.port (recordTarget toInt)
    (recognizer toInt Http.Grammar.Request_URI) (targetPort toInt) :=
  ((ports_requestURI toInt).through RequestParse.mutableUri).finish (fun _ _ => by rfl)
    fun _ => by rfl

theorem silent_version : Silent RequestParse.port (recordVersion toInt)
    (recognizer toInt Http.Grammar.HTTP_Version) := by
  rw [Http.Grammar.HTTP_Version, recognizer_concat, recognizer_concat, recognizer_pair]
  exact (Silent.lift _).seq ((Silent.record (recordMajorVersion_port toInt)).seq
    ((Silent.lift _).seq (Silent.record (recordMinorVersion_port toInt))))

theorem ports_requestLine : Ports toInt RequestParse.port (recordRequestLine toInt)
    (recognizer toInt Http.Grammar.Request_Line) (requestPort toInt) := by
  rw [Http.Grammar.Request_Line, recognizer_concat, recognizer_concat, recognizer_concat,
    recognizer_concat, recognizer_pair]
  exact Ports.seq_right (silent_method toInt) (Ports.seq_right (Silent.lift _)
    ((ports_target toInt).seq_left
      ((Silent.lift _).seq ((silent_version toInt).seq (Silent.lift _)))))

theorem silent_headerLine : Silent RequestParse.port (recordHeaderLine toInt)
    (recognizer toInt (Http.Grammar.Glue [Http.Grammar.message_header, Http.Grammar.CRLF])) := by
  rw [Http.Grammar.Glue, recognizer_impliedDelim, recognizer_impliedDelim_singleton,
    Http.Grammar.message_header, recognizer_forwardRef _ _ rfl]
  change Silent _ _ (.seq (recognizer toInt (Http.Grammar.Glue _)) _)
  rw [Http.Grammar.Glue, recognizer_impliedDelim, recognizer_impliedDelim,
    recognizer_impliedDelim_singleton, recognizer_opt]
  have hvalue : Silent RequestParse.port
      (Meaning.record (recognizer toInt Http.Grammar.field_value) RequestParse.emplaceHeader).opt
      (recognizer toInt Http.Grammar.field_value).opt :=
    (Silent.record fun _ _ => by rfl).alt (Silent.lift .eps)
  refine Silent.seq (Silent.after ?_ fun _ => by rfl) ((Silent.lift _).seq (Silent.lift _))
  exact (Silent.record fun _ _ => by rfl).seq ((Silent.lift _).seq
    ((Silent.lift _).seq ((Silent.lift _).seq hvalue)))

/-- The port of a request. -/
theorem ports_request : Ports toInt RequestParse.port (recordRequest toInt)
    (recognizer toInt Http.Grammar.Request) (requestPort toInt) := by
  rw [Http.Grammar.Request, recognizer_concat, recognizer_pair, recognizer_repeat]
  exact (ports_requestLine toInt).seq_left ((silent_headerLine toInt).loop.seq (Silent.lift _))

end Request

/-! ### When the port is exact -/

/-- The value of the port text, where there are digits and an `unsigned` holds it. -/
def exactPort (text : Option (List Byte)) : Option ℕ :=
  text.bind fun d =>
    if d ≠ [] ∧ decimal (d.map octet) < unsignedSize then some (decimal (d.map octet)) else none

/-- The parse returns, and leaves the exact port, or none. -/
def PortExact {ν σ : Type} (V : Visitors Name Cctype Byte ν σ) (v : ν) (g : Grammar) (st : σ)
    (port : σ → Option ℕ) (text : List Byte → Option (List Byte)) (s : List Byte) : Prop :=
  (∃ r st', Visits octets V v g s st r st') ∧
    ∀ r st', Visits octets V v g s st r st' → port st' = exactPort (text s)

theorem portText_digits {s d : List Byte} (h : (recognizer octet port).textOf s = some d) :
    ∀ c ∈ d.map octet, Cctype.test .isdigit c = true := by
  obtain ⟨n, hn, rfl⟩ := Recognizer.textOf_eq_some.1 h
  rw [port, recognizer_repeat, Uri.Grammar.digit, recognizer_charFilter] at hn
  intro c hc
  obtain ⟨b, hb, rfl⟩ := List.mem_map.1 hc
  exact Recognizer.star_satisfy_mem hn b hb

/-- The port is exact exactly where the text of the port is, if there is one. -/
theorem portExact_iff {ν σ : Type} {V : Visitors Name Cctype Byte ν σ} {v : ν} {g : Grammar}
    {st : σ}
    {port : σ → Option ℕ} {m : Meaning Byte σ} {f : Recognizer Byte}
    {text : List Byte → Option (List Byte)} (hm : meaning octets V (some v) g = m)
    (hports : Ports octet port m f text)
    (hdigits : ∀ s d, text s = some d → ∀ c ∈ d.map octet, Cctype.test .isdigit c = true)
    (hfresh : port st = none) (s : List Byte) :
    PortExact V v g st port text s ↔
      ∀ d, text s = some d → d ≠ [] ∧ decimal (d.map octet) < unsignedSize := by
  have hrun := hports s st
  rw [← hm] at hrun
  -- a run that returns is one that the meaning gives
  have hvisit : ∀ w st', meaning octets V (some v) g s st = .ok (w, st') →
      (∃ r, Visits octets V v g s st r st') ∧
        ∀ r st'', Visits octets V v g s st r st'' → st'' = st' := by
    intro w st' h
    obtain ⟨r, hr, -⟩ := exists_visits_iff.2 h
    exact ⟨⟨r, hr⟩, fun r' st'' hr' => (hr'.unique hr).2⟩
  unfold Converts at hrun
  cases htext : text s with
  | none =>
      simp only [htext] at hrun
      obtain ⟨st', hok, hport⟩ := hrun
      obtain ⟨⟨r, hr⟩, huniq⟩ := hvisit _ st' hok
      refine ⟨fun _ d hd => by simp at hd, fun _ => ⟨⟨r, st', hr⟩, fun r' st'' hr' => ?_⟩⟩
      rw [huniq r' st'' hr', hport, hfresh, htext]
      rfl
  | some d =>
      simp only [htext, stoul_of_digits (hdigits s d htext), List.map_eq_nil_iff] at hrun
      have hreturns : ∀ e, meaning octets V (some v) g s st = .error e →
          ¬ PortExact V v g st port text s := by
        rintro e he ⟨⟨r, st', hr⟩, -⟩
        rw [exists_visits_iff.1 ⟨r, hr, rfl⟩] at he
        cases he
      constructor
      · intro hexact d' hd'
        obtain rfl : d = d' := Option.some.inj hd'
        by_cases hnil : d = []
        · simp only [hnil, if_true] at hrun
          exact absurd hexact (hreturns _ hrun)
        · simp only [hnil, if_false] at hrun
          split_ifs at hrun with hlong
          · exact absurd hexact (hreturns _ hrun)
          · obtain ⟨st', hok, hport⟩ := hrun
            obtain ⟨⟨r, hr⟩, -⟩ := hvisit _ st' hok
            have hvalue := hexact.2 r st' hr
            rw [hport, htext, exactPort, Option.bind_some] at hvalue
            by_contra hno
            rw [if_neg hno] at hvalue
            cases hvalue
      · intro hall
        obtain ⟨hnil, hlt⟩ := hall d rfl
        have hlong : ¬ unsignedLongSize ≤ decimal (d.map octet) := by
          simp only [unsignedSize, unsignedLongSize] at hlt ⊢
          omega
        simp only [hnil, if_false, hlong] at hrun
        obtain ⟨st', hok, hport⟩ := hrun
        obtain ⟨⟨r, hr⟩, huniq⟩ := hvisit _ st' hok
        refine ⟨⟨r, st', hr⟩, fun r' st'' hr' => ?_⟩
        rw [huniq r' st'' hr', hport, htext, exactPort, Option.bind_some, if_pos ⟨hnil, hlt⟩,
          Nat.mod_eq_of_lt hlt]

/-! ### The two entry points -/

theorem authorityPort_digits {s d : List Byte} (h : authorityPort octet s = some d) :
    ∀ c ∈ d.map octet, Cctype.test .isdigit c = true := by
  simp only [authorityPort, Recognizer.after_eq_some] at h
  obtain ⟨_, _, _, _, _, _, hd⟩ := h
  exact portText_digits hd

theorem inNetPath_digits {s d : List Byte} (h : inNetPath octet (authorityPort octet) s = some d) :
    ∀ c ∈ d.map octet, Cctype.test .isdigit c = true := by
  simp only [inNetPath, Recognizer.after_eq_some] at h
  obtain ⟨_, _, _, _, hd⟩ := h
  exact authorityPort_digits hd

theorem inAbsoluteURI_digits {s d : List Byte}
    (h : inAbsoluteURI octet (authorityPort octet) s = some d) :
    ∀ c ∈ d.map octet, Cctype.test .isdigit c = true := by
  simp only [inAbsoluteURI, Recognizer.after_eq_some] at h
  obtain ⟨_, _, _, _, hd⟩ := h
  exact inNetPath_digits hd

theorem referencePort_digits {s d : List Byte} (h : referencePort octet s = some d) :
    ∀ c ∈ d.map octet, Cctype.test .isdigit c = true := by
  rcases Option.or_eq_some_iff.1 h with h | ⟨-, h⟩
  · exact inAbsoluteURI_digits h
  · exact inNetPath_digits h

theorem requestPort_digits {s d : List Byte} (h : requestPort octet s = some d) :
    ∀ c ∈ d.map octet, Cctype.test .isdigit c = true := by
  simp only [requestPort, Recognizer.after_eq_some] at h
  obtain ⟨_, _, _, _, h⟩ := h
  rcases Option.or_eq_some_iff.1 h with h | ⟨-, h⟩
  · rcases Option.or_eq_some_iff.1 h with h | ⟨-, h⟩
    · exact inNetPath_digits h
    · exact inAbsoluteURI_digits h
  · split_ifs at h
    exact authorityPort_digits h

/-- The parse of a `URI_reference` with `MakeUriParseVisitor` leaves the exact port. -/
def UriPortExact : List Byte → Prop :=
  PortExact (uriVisitors octet) .make URI_reference {} Uri.port (referencePort octet)

/-- `ParseRequest` leaves the exact port. -/
def RequestPortExact : List Byte → Prop :=
  PortExact (requestVisitors octet) .request Http.Grammar.Request {} RequestParse.port
    (requestPort octet)

theorem uriPortExact_iff (s : List Byte) : UriPortExact s ↔
    ∀ d, referencePort octet s = some d → d ≠ [] ∧ decimal (d.map octet) < unsignedSize := by
  have hports : Ports octet Uri.port
      ((((recordReference octet Meaning.alt).finish (fun text u => .ok (u.assign text)) id).after
        id).through .self) (recognizer octet URI_reference) (referencePort octet) :=
    (((ports_reference octet).finish (fun _ _ => by rfl) fun _ => by rfl).after
      fun _ => by rfl).through .self
  have hmeaning := meaning_make octet_inLookup (V := uriVisitors octet) (e := id)
    (p := .self) fun _ _ => rfl
  exact portExact_iff hmeaning hports (fun _ _ => referencePort_digits) rfl s

theorem requestPortExact_iff (s : List Byte) : RequestPortExact s ↔
    ∀ d, requestPort octet s = some d → d ≠ [] ∧ decimal (d.map octet) < unsignedSize :=
  portExact_iff (meaning_request octet_inLookup) (ports_request octet)
    (fun _ _ => requestPort_digits) rfl s

/-- **The port is exact** exactly where the digits that the rule `port` accepts, if it is reached,
are not empty and have a value that fits in an `unsigned`; then no exception escapes either. -/
theorem port_exact_iff (s : List Byte) :
    (UriPortExact s ↔
      ∀ d, referencePort octet s = some d → d ≠ [] ∧ decimal (d.map octet) < unsignedSize) ∧
    (RequestPortExact s ↔
      ∀ d, requestPort octet s = some d → d ≠ [] ∧ decimal (d.map octet) < unsignedSize) :=
  ⟨uriPortExact_iff s, requestPortExact_iff s⟩

/-- A colon after the host with no digits behind it is enough for an exception. -/
theorem port_not_exact :
    ¬ UriPortExact (bytes "http://h:/\n") ∧
      ¬ RequestPortExact (bytes "GET //h:/ HTTP/1.1\r\n\r\n") := by
  have huri : referencePort octet (bytes "http://h:/\n") = some [] := by decide +kernel
  have hrequest : requestPort octet (bytes "GET //h:/ HTTP/1.1\r\n\r\n") = some [] := by
    decide +kernel
  constructor
  · intro h
    exact ((uriPortExact_iff _).1 h [] huri).1 rfl
  · intro h
    exact ((requestPortExact_iff _).1 h [] hrequest).1 rfl

end Hittop
