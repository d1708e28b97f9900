/-
**The headers of a request, as they are recorded.**

A header is recorded when its value has been read, before the end of its line is.  Where the request
is accepted no line has failed behind its value, so that the headers are those of the lines.  A
value is what the loop over `TEXT` takes: the control characters in it are tabs and the ends of
lines that white space follows.

Ranges are told apart by positions: the text is parsed with each character numbered.

Main definitions:

* `Hittop.InOrder` — texts that stand in another one after the other;
* `Hittop.Continued`, `Hittop.CleanValue` — what a value is made of;
* `Hittop.HeaderLine` — a header with the rest of its line.

Main results:

* `Hittop.fieldValue_continued`, `Hittop.token_ensures` — what the rules accept;
* `Hittop.headerLine_accept`, `Hittop.request_accept` — what is recorded of an accepted text;
* `Hittop.recorded_headers_clean` — the recorded headers of an accepted request.
-/

import Hittop.Http.Framing
import Hittop.Http.Taking

set_option relaxedAutoImplicit false
set_option autoImplicit false

namespace Hittop

open Meaning Http.Grammar
open Recognizer (Ensures Additive)
open Uri.Grammar (lit)

/-! ### Texts in a text -/

section InOrder

variable {α : Type} {xs ys : List (List α)} {s t : List α}

/-- The texts stand in `s` one after the other. -/
def InOrder : List (List α) → List α → Prop
  | [], _ => True
  | x :: xs, s => ∃ gap rest, s = gap ++ (x ++ rest) ∧ InOrder xs rest

theorem InOrder.skip (h : InOrder xs s) (gap : List α) : InOrder xs (gap ++ s) := by
  cases xs with
  | nil => trivial
  | cons x xs =>
      obtain ⟨gap', rest, rfl, hrest⟩ := h
      exact ⟨gap ++ gap', rest, by rw [List.append_assoc], hrest⟩

theorem InOrder.append (hx : InOrder xs s) (hy : InOrder ys t) : InOrder (xs ++ ys) (s ++ t) := by
  induction xs generalizing s with
  | nil => exact hy.skip s
  | cons x xs ih =>
      obtain ⟨gap, rest, rfl, hrest⟩ := hx
      exact ⟨gap, rest ++ t, by simp, ih hrest⟩

/-- What is in order piece by piece is in order. -/
theorem InOrder.flatMap {ι : Type} {parts : ι → List (List α)} {text : ι → List α}
    (h : ∀ i, InOrder (parts i) (text i)) (items : List ι) :
    InOrder (items.flatMap parts) (items.flatMap text) := by
  induction items with
  | nil => trivial
  | cons i items ih =>
      rw [List.flatMap_cons, List.flatMap_cons]
      exact (h i).append ih

end InOrder

/-! ### Values -/

/-- A text in which control characters are tabs and the ends of lines that a blank follows. -/
inductive Continued : List Byte → Prop
  | nil : Continued []
  | char {c : Byte} {x : List Byte} (h : Cctype.test .iscntrl (octet c) = true → c = 9) :
      Continued x → Continued (c :: x)
  | fold {c : Byte} {x : List Byte} (h : c = 32 ∨ c = 9) :
      Continued x → Continued (13 :: 10 :: c :: x)

/-- Every control character is a tab, or a carriage return or line feed of an end of a line that a
space or tab follows. -/
def CleanValue (x : List Byte) : Prop :=
  ∀ before c after, x = before ++ c :: after → Cctype.test .iscntrl (octet c) = true →
    c = 9 ∨ (c = 13 ∧ ∃ b rest, after = 10 :: b :: rest ∧ (b = 32 ∨ b = 9)) ∨
      (c = 10 ∧ ∃ front b rest, before = front ++ [13] ∧ after = b :: rest ∧ (b = 32 ∨ b = 9))

theorem control_of_blank {c : Byte} (h : c = 32 ∨ c = 9)
    (hc : Cctype.test .iscntrl (octet c) = true) : c = 9 := by
  rcases h with rfl | rfl
  · exact absurd hc (by decide)
  · rfl

namespace Continued

variable {x y : List Byte}

theorem append (hx : Continued x) (hy : Continued y) : Continued (x ++ y) := by
  induction hx with
  | nil => exact hy
  | char h _ ih => exact .char h ih
  | fold h _ ih => exact .fold h ih

theorem clean (hx : Continued x) : CleanValue x := by
  induction hx with
  | nil =>
      intro before c after h
      exact absurd h (by simp)
  | @char d x h _ ih =>
      intro before c after hsplit hc
      rcases before with _ | ⟨b, before⟩
      · obtain ⟨rfl, rfl⟩ := List.cons.inj hsplit
        exact .inl (h hc)
      · obtain ⟨rfl, hrest⟩ := List.cons.inj hsplit
        refine (ih before c after hrest hc).imp_right (.imp_right ?_)
        rintro ⟨rfl, front, b, rest, rfl, hafter⟩
        exact ⟨rfl, d :: front, b, rest, rfl, hafter⟩
  | @fold d x h _ ih =>
      intro before c after hsplit hc
      -- the three characters of the fold, and what is behind it
      rcases before with _ | ⟨b₁, _ | ⟨b₂, _ | ⟨b₃, before⟩⟩⟩
      · obtain ⟨rfl, rfl⟩ := List.cons.inj hsplit
        exact .inr (.inl ⟨rfl, d, x, rfl, h⟩)
      · obtain ⟨rfl, hrest⟩ := List.cons.inj hsplit
        obtain ⟨rfl, rfl⟩ := List.cons.inj hrest
        exact .inr (.inr ⟨rfl, [], d, x, rfl, rfl, h⟩)
      · obtain ⟨-, hrest⟩ := List.cons.inj hsplit
        obtain ⟨-, hrest⟩ := List.cons.inj hrest
        obtain ⟨rfl, -⟩ := List.cons.inj hrest
        exact .inl (control_of_blank h hc)
      · simp only [List.cons_append, List.cons.injEq] at hsplit
        obtain ⟨rfl, rfl, rfl, hrest⟩ := hsplit
        refine (ih before c after hrest hc).imp_right (.imp_right ?_)
        rintro ⟨rfl, front, b, rest, rfl, hafter⟩
        exact ⟨rfl, 13 :: 10 :: d :: front, b, rest, rfl, hafter⟩

end Continued

/-! ### What the rules accept -/

variable {κ : Type} (byte : κ → Byte)

/-- The value of a character that carries a byte. -/
def carried (c : κ) : ℤ := octet (byte c)

theorem carried_inLookup : InLookup (carried byte) := fun c => octet_inLookup (byte c)

/-- The bytes of a range. -/
def letters (x : List κ) : List Byte := x.map byte

theorem letters_append (x y : List κ) : letters byte (x ++ y) = letters byte x ++ letters byte y :=
  List.map_append

variable {byte}

/-- The character functions are the same for a character and for one with a position. -/
theorem recognizer_carried {g : Grammar} (hg : g.isClass = true) {p : Byte → Bool}
    (h : recognizer octet g = .satisfy p) :
    recognizer (carried byte) g = .satisfy fun c => p (byte c) := by
  rw [recognizer_class hg] at h ⊢
  refine congrArg Recognizer.satisfy (funext fun c => ?_)
  have hrun := congrArg (fun f : Recognizer Byte => (f [byte c])) h
  simp only [Recognizer.satisfy_cons] at hrun
  change has g (octet (byte c)) = p (byte c)
  cases hleft : has g (octet (byte c)) <;> cases hright : p (byte c) <;>
    simp [hleft, hright] at hrun ⊢

/-- **A name is a token.** -/
theorem fieldName_ensures :
    Ensures (recognizer (carried byte) field_name) fun x => letters byte x ∈ Http.Text.token := by
  rw [recognizer_fieldName, recognizer_tokenRule, recognizer_carried rfl recognizer_tokenChar]
  refine Ensures.some_satisfy.mono fun x hx => ⟨by simpa [letters] using hx.1, fun c hc => ?_⟩
  obtain ⟨a, ha, rfl⟩ := List.mem_map.1 hc
  exact hx.2 a ha

theorem carried_lit_ensures (x : Char) (b : Byte) (hb : octet b = ch x) :
    Ensures (recognizer (carried byte) (lit x)) fun y => letters byte y = [b] := by
  rw [recognizer_lit]
  refine Ensures.satisfy fun c hc => ?_
  rw [letters, List.map_singleton, octet_injective ((of_decide_eq_true hc).trans hb.symm)]

/-- White space, with the end of a line before it or without. -/
theorem carried_LWS_ensures :
    Ensures (recognizer (carried byte) LWS) fun y => Continued (letters byte y) := by
  have hblank : Ensures (recognizer (carried byte) blankChar)
      fun y => ∃ c, (c = 32 ∨ c = 9) ∧ letters byte y = [c] := by
    rw [blankChar, recognizer_choice]
    exact Ensures.alt
      ((carried_lit_ensures ' ' 32 rfl).mono fun y hy => ⟨32, .inl rfl, hy⟩)
      ((carried_lit_ensures '\t' 9 rfl).mono fun y hy => ⟨9, .inr rfl, hy⟩)
  have hmore : Ensures (.star (recognizer (carried byte) blankChar))
      fun y => Continued (letters byte y) := by
    refine hblank.star_of .nil ?_
    rintro x y ⟨c, hc, hx⟩ hy
    rw [letters_append, hx]
    exact .char (control_of_blank hc) hy
  have hend : Ensures (.opt (recognizer (carried byte) CRLF))
      fun y => letters byte y = [] ∨ letters byte y = [13, 10] := by
    rw [recognizer_CRLF]
    refine Ensures.opt (((carried_lit_ensures '\r' 13 rfl).seq_of
      (carried_lit_ensures '\n' 10 rfl) fun x y hx hy => ?_)) (.inl rfl)
    rw [letters_append, hx, hy]
    exact .inr rfl
  rw [recognizer_LWS]
  refine hend.seq_of (hblank.seq_of hmore (R := fun y => ∃ c x, (c = 32 ∨ c = 9) ∧
    Continued x ∧ letters byte y = c :: x) ?_) ?_
  · rintro x y ⟨c, hc, hx⟩ hy
    exact ⟨c, letters byte y, hc, hy, by rw [letters_append, hx]; rfl⟩
  · rintro x y hx ⟨c, z, hc, hz, hy⟩
    rw [letters_append, hy]
    rcases hx with hx | hx
    · rw [hx]
      exact .char (control_of_blank hc) hz
    · rw [hx]
      exact .fold hc hz

/-- **A value is continued** over the ends of lines: it is a run of `TEXT`, and no other alternative
of `field_value` is ever tried. -/
theorem fieldValue_continued :
    Ensures (recognizer (carried byte) field_value) fun y => Continued (letters byte y) := by
  have htext : Ensures (recognizer (carried byte) textChar)
      fun y => Continued (letters byte y) := by
    rw [recognizer_class (g := textChar) rfl]
    refine Ensures.satisfy fun c hc => .char (fun hcontrol => ?_) .nil
    rw [textChar, has_unless] at hc
    have hnot : has CTLs (octet (byte c)) = true := hcontrol
    simp [carried, hnot] at hc
  have hadditive : Additive fun y : List κ => Continued (letters byte y) := by
    refine ⟨.nil, fun hx hy => ?_⟩
    rw [letters_append]
    exact hx.append hy
  rw [recognizer_fieldValue, recognizer_TEXT]
  exact ((carried_LWS_ensures.alt htext).star hadditive).star hadditive

/-! ### What is recorded -/

/-- A header with the rest of its line. -/
structure HeaderLine (byte : κ → Byte) where
  header : Header κ
  /-- The colon, with white space. -/
  between : List κ
  ending : List κ
  name_token : letters byte header.name ∈ Http.Text.token
  value_continued : Continued (letters byte header.value)

namespace HeaderLine

def text (l : HeaderLine byte) : List κ :=
  l.header.name ++ (l.between ++ (l.header.value ++ l.ending))

def record (l : HeaderLine byte) (st : RequestParse κ) : RequestParse κ :=
  RequestParse.emplaceHeader l.header.value { st with name := l.header.name }

theorem text_ne_nil (l : HeaderLine byte) : l.text ≠ [] := by
  intro h
  have hname : l.header.name = [] := (List.append_eq_nil_iff.1 h).1
  exact l.name_token.1 (by rw [hname]; rfl)

theorem inOrder (l : HeaderLine byte) : InOrder [l.header.name, l.header.value] l.text :=
  ⟨[], _, rfl, l.between, l.ending, rfl, trivial⟩

theorem foldl_record (lines : List (HeaderLine byte)) (st : RequestParse κ) :
    (lines.foldl (fun st l => l.record st) st).request.headers =
      st.request.headers ++ lines.map HeaderLine.header := by
  induction lines generalizing st with
  | nil => simp
  | cons l lines ih =>
      rw [List.foldl_cons, ih]
      simp [record, RequestParse.emplaceHeader]

end HeaderLine

variable {s : List κ} {n : ℕ} {st st' : RequestParse κ}

/-- **The line of a header** that is accepted has recorded the header. -/
theorem headerLine_accept (h : recordHeaderLine (carried byte) s st = .ok (.accept n, st')) :
    ∃ l : HeaderLine byte, l.text ≠ [] ∧ s.take n = l.text ∧ st' = l.record st := by
  obtain ⟨a, b, st₁, hheader, hend, rfl⟩ := seq_accept_cases h
  obtain ⟨a₁, a₂, st₂, hname, hrest₁, rfl⟩ := seq_accept_cases hheader
  obtain ⟨a₃, a₄, st₃, hblanks, hrest₂, rfl⟩ := seq_accept_cases hrest₁
  obtain ⟨a₅, a₆, st₄, hcolon, hrest₃, rfl⟩ := seq_accept_cases hrest₂
  obtain ⟨a₇, a₈, st₅, hblanks', hvalue, rfl⟩ := seq_accept_cases hrest₃
  obtain ⟨htoken, rfl⟩ := record_accept hname
  obtain ⟨-, rfl⟩ := lift_cases hblanks
  obtain ⟨-, rfl⟩ := lift_cases hcolon
  obtain ⟨-, rfl⟩ := lift_cases hblanks'
  obtain ⟨htext, rfl⟩ : recognizer (carried byte) field_value
      ((((s.drop a₁).drop a₃).drop a₅).drop a₇) = .accept a₈ ∧
      st₁ = RequestParse.emplaceHeader (((((s.drop a₁).drop a₃).drop a₅).drop a₇).take a₈)
        { st with name := s.take a₁ } := by
    rcases alt_cases hvalue with ⟨hrecord, -⟩ | ⟨st₁, hreject, -⟩
    · exact record_accept hrecord
    · -- a loop does not reject
      rcases record_cases hreject with ⟨k, hk, -⟩ | ⟨-, hreject, -⟩
      · cases hk
      · rw [recognizer_fieldValue] at hreject
        exact absurd hreject.symm (Recognizer.lenient_star _ _)
  obtain ⟨a₉, a₁₀, st₆, hblanks'', hcrlf, -⟩ := seq_accept_cases hend
  obtain ⟨-, rfl⟩ := lift_cases hblanks''
  obtain ⟨-, rfl⟩ := lift_cases hcrlf
  let l : HeaderLine byte := {
    header := ⟨s.take a₁, ((((s.drop a₁).drop a₃).drop a₅).drop a₇).take a₈⟩
    between := (s.drop a₁).take a₃ ++ (((s.drop a₁).drop a₃).take a₅ ++
      (((s.drop a₁).drop a₃).drop a₅).take a₇)
    ending := (s.drop (a₁ + (a₃ + (a₅ + (a₇ + a₈))))).take b
    name_token := fieldName_ensures _ _ htoken
    value_continued := fieldValue_continued _ _ htext }
  refine ⟨l, l.text_ne_nil, ?_, rfl⟩
  simp only [HeaderLine.text, l, List.take_add, List.append_assoc]

/-- At the end of a line no header begins. -/
theorem headerLine_reject (hs : (letters byte s).head? = some 13)
    (h : recordHeaderLine (carried byte) s st = .ok (.reject, st')) :
    st'.request.headers = st.request.headers := by
  obtain ⟨c, t, rfl⟩ : ∃ c t, s = c :: t := by
    cases s with
    | nil => cases hs
    | cons c t => exact ⟨c, t, rfl⟩
  have hc : byte c = 13 := Option.some.inj hs
  have hname : recognizer (carried byte) field_name (c :: t) = .reject := by
    rw [recognizer_fieldName, recognizer_tokenRule, recognizer_carried rfl recognizer_tokenChar]
    refine Recognizer.seq_of_reject (satisfy_reject ?_)
    rw [hc]
    decide
  have hrefuses : Refuses (recordHeaderLine (carried byte)) (c :: t) st { st with name := [] } :=
    ((Refuses.record hname).seq_left.after).seq_left
  rw [Refuses, h] at hrefuses
  cases hrefuses
  rfl

theorem crlf_head (h : recognizer (carried byte) CRLF s = .accept n) :
    (letters byte s).head? = some 13 := by
  rw [recognizer_CRLF] at h
  obtain ⟨a, b, hreturn, -, -⟩ := Recognizer.seq_eq_accept.1 h
  have hletters := carried_lit_ensures '\r' 13 rfl _ _ hreturn
  rw [← List.take_append_drop a s, letters_append, hletters]
  rfl

/-- No header has been recorded. -/
def Headerless (st : RequestParse κ) : Prop := st.request.headers = []

theorem leads_lift (f : Recognizer κ) :
    Leads Headerless Headerless (lift f : Meaning κ (RequestParse κ)) := by
  have hsilent : Silent (fun st : RequestParse κ => st.request.headers) (lift f) f := Silent.lift f
  exact hsilent.keeps.leads fun _ _ => Eq.trans

theorem leads_record {f : Recognizer κ}
    {part : List κ → RequestParse κ → RequestParse κ}
    (h : ∀ text st, (part text st).request.headers = st.request.headers) :
    Leads Headerless Headerless (Meaning.record f part) := by
  have hsilent : Silent (fun st : RequestParse κ => st.request.headers) (Meaning.record f part) f :=
    Silent.record h
  exact hsilent.keeps.leads fun _ _ => Eq.trans

/-- A request line records no header. -/
theorem leads_requestLine : Leads Headerless Headerless (recordRequestLine (carried byte)) := by
  have hmethod : Leads Headerless Headerless (recordMethod (carried byte)) := by
    refine (leads_record fun text st => ?_).alt (leads_lift _)
    unfold recordHttpMethod
    cases httpMethodOf (text.map (carried byte)) <;> rfl
  have htarget : Leads Headerless Headerless (recordTarget (carried byte)) := by
    intro s st v st' hst h
    obtain ⟨st₁, hthrough, hend⟩ := finish_cases h
    obtain ⟨u, -, rfl⟩ := through_cases hthrough
    have hst' : Headerless st' := by
      rcases hend with ⟨n, -, hok⟩ | ⟨-, rfl⟩
      · cases hok
        exact hst
      · exact hst
    exact ⟨fun _ _ => hst', fun _ => hst'⟩
  have hversion : Leads Headerless Headerless (recordVersion (carried byte)) := by
    refine (leads_lift _).stable_seq ((leads_record fun text st => ?_).stable_seq
      ((leads_lift _).stable_seq (leads_record fun text st => ?_)))
    · unfold recordMajorVersion
      cases integerParse intMax (text.map (carried byte)) <;> rfl
    · unfold recordMinorVersion
      cases integerParse intMax (text.map (carried byte)) <;> rfl
  exact hmethod.stable_seq ((leads_lift _).stable_seq (htarget.stable_seq
    ((leads_lift _).stable_seq (hversion.stable_seq (leads_lift _)))))

/-- **What is recorded** of an accepted text: the headers of its lines. -/
theorem request_accept (h : recordRequest (carried byte) s {} = .ok (.accept n, st')) :
    ∃ (line : List κ) (lines : List (HeaderLine byte)) (ending : List κ),
      s.take n = line ++ (lines.flatMap HeaderLine.text ++ ending) ∧
        st'.request.headers = lines.map HeaderLine.header := by
  obtain ⟨a, b, st₁, hline, hrest, rfl⟩ := seq_accept_cases h
  obtain ⟨c, d, st₂, hloop, hend, rfl⟩ := seq_accept_cases hrest
  obtain ⟨hcrlf, rfl⟩ := lift_cases hend
  have hst₁ : Headerless st₁ := (leads_requestLine s {} _ st₁ rfl hline).1 a rfl
  obtain ⟨lines, htake, hlast⟩ := loop_items (silent_headerLine (carried byte)).bounded
    (fun _ _ _ _ => headerLine_accept) hloop
  refine ⟨s.take a, lines, ((s.drop a).drop c).take d, ?_, ?_⟩
  · rw [← htake, List.take_add, List.take_add]
  · rw [headerLine_reject (crlf_head hcrlf) hlast, HeaderLine.foldl_record, hst₁, List.nil_append]

/-- **The headers of an accepted request**: every name is a token, every value is clean, and names
and values stand one after the other in the text that is consumed.  The characters carry bytes, and
may carry positions as well. -/
theorem recorded_headers_clean (byte : κ → Byte) (s : List κ) {r : ParseResult}
    {st : RequestParse κ}
    (h : Visits (reading (carried byte)) (requestVisitors (carried byte)) .request
      Http.Grammar.Request s {} r st) (hr : r.ok = true) :
    (∀ h ∈ st.request.headers, letters byte h.name ∈ Http.Text.token ∧
      CleanValue (letters byte h.value)) ∧
    InOrder (st.request.headers.flatMap fun h => [h.name, h.value]) (s.take r.pos) := by
  have hrun := exists_visits_iff.1 ⟨r, h, rfl⟩
  rw [meaning_request (carried_inLookup byte), ParseResult.eq_success hr,
    ParseResult.verdict_success] at hrun
  obtain ⟨line, lines, ending, htake, hheaders⟩ := request_accept hrun
  rw [hheaders, htake]
  constructor
  · intro h hh
    obtain ⟨l, -, rfl⟩ := List.mem_map.1 hh
    exact ⟨l.name_token, l.value_continued.clean⟩
  · rw [List.flatMap_map]
    refine InOrder.skip ?_ line
    have hlines : InOrder (lines.flatMap fun l => [l.header.name, l.header.value])
        (lines.flatMap HeaderLine.text) := InOrder.flatMap HeaderLine.inOrder lines
    have hend : InOrder [] ending := trivial
    have hall := hlines.append hend
    rwa [List.append_nil] at hall

/-- A header with a folded value, and the positions of its characters. -/
theorem recorded_headers_clean_folded : ∃ (r : ParseResult) (st : RequestParse (Byte × ℕ)),
    st.request.headers =
      [⟨[(97, 16)], [(98, 19), (13, 20), (10, 21), (32, 22), (99, 23)]⟩] ∧
    (∀ h ∈ st.request.headers, letters Prod.fst h.name ∈ Http.Text.token ∧
      CleanValue (letters Prod.fst h.value)) ∧
    InOrder (st.request.headers.flatMap fun h => [h.name, h.value])
      ((bytes "GET / HTTP/1.1\r\na: b\r\n c\r\n\r\n").zipIdx.take r.pos) := by
  have heval : (recordRequest (carried Prod.fst)
      (bytes "GET / HTTP/1.1\r\na: b\r\n c\r\n\r\n").zipIdx {}).toOption.map
        (fun q => (q.1, q.2.request.headers)) = some (.accept 28,
          [⟨[(97, 16)], [(98, 19), (13, 20), (10, 21), (32, 22), (99, 23)]⟩]) := by
    decide +kernel
  rw [← meaning_request (carried_inLookup Prod.fst)] at heval
  generalize hrun : meaning _ _ _ _ _ _ = x at heval
  cases x with
  | error e => cases heval
  | ok q =>
      obtain ⟨v, st⟩ := q
      obtain ⟨rfl, hheaders⟩ := Prod.mk.inj (Option.some.inj heval)
      obtain ⟨r, hvisits, hv⟩ := exists_visits_iff.2 hrun
      rw [ParseResult.verdict_eq_accept] at hv
      exact ⟨r, st, hheaders, recorded_headers_clean Prod.fst _ hvisits (by rw [hv]; rfl)⟩

end Hittop
