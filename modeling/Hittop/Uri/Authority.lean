/-
**What an authority consumes.**

The first alternative of `authority` is optional, so that it never rejects and the second one is
never tried.  A registry name is consumed as far as it is a user with an at-sign and a host with a
port.

Main definitions:

* `Hittop.Uri.Text.regName` — the documented language of registry names;
* `Hittop.behindAt` — what follows the first at-sign of a text, or all of it.

Main results:

* `Hittop.recognizer_authority` — the alternative of registry names is not reached;
* `Hittop.behindAt_cases` — the user in front of an at-sign;
* `Hittop.authority_whole_iff` — a registry name is consumed exactly if a host and a port are what
  follows its user.
-/

import Hittop.Uri.Hostname

set_option relaxedAutoImplicit false
set_option autoImplicit false

namespace Hittop

open scoped Computability
open Uri.Grammar (lit)
open Uri.Text (oneOf urlChar encoded)

namespace Uri.Text

/-- `1*( unreserved | escaped | "$" | "," | ";" | ":" | "@" | "&" | "=" | "+" )` -/
def regName : Language Byte :=
  (oneOf (urlChar "$,;:@&=+") + escaped) * encoded "$,;:@&=+"

def isDigit (c : Byte) : Bool := Cctype.test .isdigit (octet c)

/-- `1*digit` -/
def number : Language Byte := {x | x ≠ [] ∧ ∀ c ∈ x, isDigit c = true}

/-- `1*digit "." 1*digit "." 1*digit "." 1*digit` -/
def IPv4address : Language Byte :=
  number * ({bytes "."} * (number * ({bytes "."} * (number * ({bytes "."} * number)))))

/-- A host, in whose name labels may be empty and have no two hyphens in a row, with or without a
port. -/
def looseHostport : Language Byte :=
  (looseHostname + IPv4address) * (1 + {bytes ":"} * (oneOf isDigit)∗)

end Uri.Text

/-! ### The user of a registry name -/

section User

variable {a p r : List Byte}

/-- What follows the first at-sign; all of the text where there is none. -/
def behindAt (a : List Byte) : List Byte :=
  if 64 ∈ a then (a.dropWhile fun c => decide (c ≠ 64)).tail else a

theorem behindAt_append (hp : 64 ∉ p) :
    behindAt (p ++ r) = if 64 ∈ r then behindAt r else p ++ r := by
  have hskip : (p ++ r).dropWhile (fun c => decide (c ≠ 64)) =
      r.dropWhile fun c => decide (c ≠ 64) := by
    refine List.dropWhile_append_of_pos fun c hc => decide_eq_true ?_
    rintro rfl
    exact hp hc
  by_cases hr : 64 ∈ r
  · have hmem : 64 ∈ p ++ r := List.mem_append_right p hr
    rw [behindAt, behindAt, if_pos hmem, if_pos hr, if_pos hr, hskip]
  · have hnone : 64 ∉ p ++ r := fun h => (List.mem_append.1 h).elim hp hr
    rw [behindAt, if_neg hnone, if_neg hr]

/-- A piece of a registry name is an at-sign, or a piece of a user without an at-sign. -/
theorem regName_piece (hp : p ∈ oneOf (urlChar "$,;:@&=+") + Uri.Text.escaped) :
    p = [64] ∨ 64 ∉ p ∧ p ∈ oneOf (urlChar ";:&=+$,") + Uri.Text.escaped := by
  rcases hp with ⟨c, hc, rfl⟩ | hp
  · by_cases h64 : c = 64
    · exact .inl (by rw [h64])
    · have hothers : (bytes "$,;:@&=+").all
          (fun b => decide (b = 64) || decide (b ∈ bytes ";:&=+$,")) = true := rfl
      have huser : urlChar ";:&=+$," c = true := by
        simp only [urlChar, Bool.or_eq_true, decide_eq_true_eq] at hc ⊢
        refine hc.imp_right fun h => ?_
        have hc := List.all_eq_true.1 hothers c h
        rw [Bool.or_eq_true, decide_eq_true_eq, decide_eq_true_eq] at hc
        exact hc.resolve_left h64
      exact .inr ⟨by simpa using Ne.symm h64, .inl ⟨c, huser, rfl⟩⟩
  · refine .inr ⟨?_, .inr hp⟩
    obtain ⟨_, ⟨_, rfl, _, ⟨x, hx, rfl⟩, rfl⟩, _, ⟨y, hy, rfl⟩, rfl⟩ := hp
    intro h64
    rcases List.mem_cons.1 h64 with h | h64
    · exact absurd h (by decide)
    · rcases List.mem_cons.1 h64 with rfl | h64
      · exact absurd hx (by decide)
      · obtain rfl := List.mem_singleton.1 h64
        exact absurd hy (by decide)

/-- **The user in front of the first at-sign**, if there is one. -/
theorem behindAt_cases (ha : a ∈ encoded "$,;:@&=+") :
    (64 ∉ a ∧ a ∈ encoded ";:&=+$,") ∨
      ∃ u, u ∈ encoded ";:&=+$," ∧ a = u ++ 64 :: behindAt a := by
  obtain ⟨pieces, rfl, hpieces⟩ := ha
  induction pieces with
  | nil => exact .inl ⟨by simp, Language.nil_mem_kstar _⟩
  | cons p pieces ih =>
      have hrest := ih fun x hx => hpieces x (List.mem_cons_of_mem _ hx)
      rw [List.flatten_cons]
      rcases regName_piece (hpieces p List.mem_cons_self) with rfl | ⟨hp, huser⟩
      · exact .inr ⟨[], Language.nil_mem_kstar _, by simp [behindAt]⟩
      · have happend : ∀ x, x ∈ encoded ";:&=+$," → p ++ x ∈ encoded ";:&=+$," := by
          rintro _ ⟨more, rfl, hmore⟩
          exact ⟨p :: more, rfl, List.forall_mem_cons.2 ⟨huser, hmore⟩⟩
        rcases hrest with ⟨hno, hrest⟩ | ⟨u, hu, hrest⟩
        · exact .inl ⟨by simp [hp, hno], happend _ hrest⟩
        · have h64 : 64 ∈ pieces.flatten := by
            rw [hrest]
            simp
          refine .inr ⟨p ++ u, happend u hu, ?_⟩
          rw [behindAt_append hp, if_pos h64, List.append_assoc, ← hrest]

end User

/-! ### A host with its port -/

section Hostport

open Uri.Text (isAlpha isAlphanum labelChar plainLabel)

variable {x : List Byte} {e : Byte}

/-- `1*digit` -/
def someDigit : Recognizer Byte :=
  .seq (.satisfy Uri.Text.isDigit) (.star (.satisfy Uri.Text.isDigit))

theorem recognizer_IPv4Address : recognizer octet Uri.Grammar.IPv4Address =
    .seq someDigit (.seq (recognizer octet (lit '.')) (.seq someDigit
      (.seq (recognizer octet (lit '.')) (.seq someDigit
        (.seq (recognizer octet (lit '.')) someDigit))))) := by
  have hdigits : recognizer octet (.atLeast 1 Uri.Grammar.digit) = someDigit :=
    recognizer_atLeast_one _ _
  rw [Uri.Grammar.IPv4Address]
  simp only [recognizer_concat, recognizer_pair, hdigits]

theorem recognizer_hostport : recognizer octet Uri.Grammar.hostport =
    .seq (.alt (recognizer octet Uri.Grammar.hostname) (recognizer octet Uri.Grammar.IPv4Address))
      (.opt (.seq (recognizer octet (lit ':')) (.star (.satisfy Uri.Text.isDigit)))) := by
  rw [Uri.Grammar.hostport, recognizer_pair, recognizer_opt, recognizer_pair, Uri.Grammar.host,
    recognizer_choice, Uri.Grammar.port, recognizer_repeat, Uri.Grammar.digit,
    recognizer_charFilter]
  rfl

/-- A number is read where no digit follows. -/
theorem reads_someDigit (hx : x ∈ Uri.Text.number) (he : Uri.Text.isDigit e = false)
    (z : List Byte) : someDigit.Reads x (e :: z) :=
  Recognizer.Reads.some_satisfy hx.1 hx.2 (satisfy_reject he)

theorem reads_IPv4Address (hx : x ∈ Uri.Text.IPv4address) (he : Uri.Text.isDigit e = false)
    (z : List Byte) : (recognizer octet Uri.Grammar.IPv4Address).Reads x (e :: z) := by
  obtain ⟨n₁, h₁, _, ⟨_, rfl, _, ⟨n₂, h₂, _,
    ⟨_, rfl, _, ⟨n₃, h₃, _, ⟨_, rfl, n₄, h₄, rfl⟩, rfl⟩, rfl⟩, rfl⟩, rfl⟩, rfl⟩ := hx
  have hdot (y : List Byte) : (recognizer octet (lit '.')).Reads (bytes ".") y := reads_lit rfl y
  rw [recognizer_IPv4Address]
  exact (reads_someDigit h₁ (e := 46) rfl _).seq
    ((hdot _).seq ((reads_someDigit h₂ (e := 46) rfl _).seq
      ((hdot _).seq ((reads_someDigit h₃ (e := 46) rfl _).seq
        ((hdot _).seq (reads_someDigit h₄ he z))))))

theorem alphanum_of_digit {c : Byte} (h : Uri.Text.isDigit c = true) : isAlphanum c = true := by
  rw [isAlphanum, isalnum_test]
  exact Bool.or_eq_true_iff.2 (.inr h)

/-- A number is a label, and no last label. -/
theorem number_label (hx : x ∈ Uri.Text.number) :
    x ∈ plainLabel ∧ ∀ z, topDot (x ++ z) = .reject := by
  have hclass (c : Byte) (h : Uri.Text.isDigit c = true) :
      isAlphanum c = true ∧ isAlpha c = false := by
    refine ⟨alphanum_of_digit h, Bool.eq_false_iff.2 fun halpha => ?_⟩
    rw [Uri.Text.isDigit, Cctype.isdigit_iff] at h
    rw [isAlpha, Cctype.isalpha_iff] at halpha
    omega
  refine ⟨alphanums_plainLabel ⟨hx.1, fun c hc => (hclass c (hx.2 c hc)).1⟩, fun z => ?_⟩
  obtain ⟨c, x, rfl⟩ := List.exists_cons_of_ne_nil hx.1
  exact topDot_reject (hclass c (hx.2 c List.mem_cons_self)).2 (x ++ z)

/-- An address of four numbers is no host name. -/
theorem hostname_reject (hx : x ∈ Uri.Text.IPv4address) (he : labelChar e = false) (h46 : e ≠ 46)
    (z : List Byte) : recognizer octet Uri.Grammar.hostname (x ++ e :: z) = .reject := by
  obtain ⟨n₁, h₁, _, ⟨_, rfl, _, ⟨n₂, h₂, _,
    ⟨_, rfl, _, ⟨n₃, h₃, _, ⟨_, rfl, n₄, h₄, rfl⟩, rfl⟩, rfl⟩, rfl⟩, rfl⟩, rfl⟩ := hx
  have hnumbers : ∀ x ∈ [n₁ ++ bytes ".", n₂ ++ bytes ".", n₃ ++ bytes "."],
      ∃ n ∈ Uri.Text.number, x = n ++ bytes "." := by
    simp only [List.forall_mem_cons]
    exact ⟨⟨n₁, h₁, rfl⟩, ⟨n₂, h₂, rfl⟩, ⟨n₃, h₃, rfl⟩, by simp⟩
  have hread : ∀ x ∈ [n₁ ++ bytes ".", n₂ ++ bytes ".", n₃ ++ bytes "."],
      x ≠ [] ∧ ∀ z, True → labelDot.Reads x z := by
    intro x hx
    obtain ⟨n, hn, rfl⟩ := hnumbers x hx
    have hlabel (z : List Byte) := reads_labelDot (x := n ++ bytes ".")
      ⟨n, .inr (number_label hn).1, _, rfl, rfl⟩ z
    exact ⟨(hlabel []).1, fun z _ => (hlabel z).2⟩
  -- no number begins a last label, wherever the rule falls back to
  have hback : ∀ x ∈ [n₁ ++ bytes ".", n₂ ++ bytes ".", n₃ ++ bytes "."],
      ∀ z, topDot (x ++ z) = .reject := by
    intro x hx z
    obtain ⟨n, hn, rfl⟩ := hnumbers x hx
    rw [List.append_assoc]
    exact (number_label hn).2 _
  have hlast := (number_label h₄).1
  have hstop := labelDot_reject (mem_domainlabel.1 hlast.1).1 he (fun _ => h46) z
  have hreject : Recognizer.starThen 16 labelDot topDot
      ([n₁ ++ bytes ".", n₂ ++ bytes ".", n₃ ++ bytes "."].flatten ++ (n₄ ++ e :: z)) = .reject :=
    Recognizer.starThen_reject (by decide) hread (fun _ _ _ => trivial) trivial hstop hback
      ((number_label h₄).2 _)
  rw [recognizer_hostname]
  simpa [List.append_assoc] using hreject

theorem not_digit (he : labelChar e = false) : Uri.Text.isDigit e = false := by
  refine Bool.eq_false_iff.2 fun h => ?_
  rw [labelChar_of_alphanum (alphanum_of_digit h)] at he
  cases he

/-- A host is read where no further character of it follows. -/
theorem reads_host (hx : x ∈ Uri.Text.looseHostname + Uri.Text.IPv4address)
    (he : labelChar e = false) (h46 : e ≠ 46) (z : List Byte) :
    (Recognizer.alt (recognizer octet Uri.Grammar.hostname)
      (recognizer octet Uri.Grammar.IPv4Address)).Reads x (e :: z) := by
  rcases hx with hname | haddress
  · exact (reads_hostname hname he h46 z).alt_left
  · exact .alt_right (hostname_reject haddress he h46 z)
      (reads_IPv4Address haddress (not_digit he) z)

/-- **A host with a port is read**, or one without. -/
theorem reads_hostport (hx : x ∈ Uri.Text.looseHostport) (he : labelChar e = false) (h46 : e ≠ 46)
    (h58 : e ≠ 58) (z : List Byte) : (recognizer octet Uri.Grammar.hostport).Reads x (e :: z) := by
  have hdigit : Recognizer.satisfy Uri.Text.isDigit (e :: z) = .reject :=
    satisfy_reject (not_digit he)
  rw [recognizer_hostport]
  obtain ⟨h, hhost, _, rfl | ⟨_, rfl, d, hd, rfl⟩, rfl⟩ := hx
  · have hcolon : recognizer octet (lit ':') (e :: z) = .reject :=
      lit_reject (fun h => h58 (octet_injective (b := 58) h)) z
    exact (reads_host hhost he h46 z).seq (y := []) (.opt_nil (Recognizer.seq_of_reject hcolon))
  · have hport := Recognizer.Reads.seq (x := bytes ":") (reads_lit (x := ':') rfl (d ++ e :: z))
      (Recognizer.Reads.star_satisfy (mem_kstar_oneOf.1 hd) hdigit)
    exact (reads_host hhost (e := 58) rfl (by decide) _).seq hport.opt

theorem IPv4Address_ensures :
    (recognizer octet Uri.Grammar.IPv4Address).Ensures fun x => x ∈ Uri.Text.IPv4address := by
  have hnumber : someDigit.Ensures fun x => x ∈ Uri.Text.number := Recognizer.Ensures.some_satisfy
  rw [recognizer_IPv4Address]
  exact hnumber.mul (dot_ensures.mul (hnumber.mul (dot_ensures.mul (hnumber.mul
    (dot_ensures.mul hnumber)))))

/-- **What a host with a port accepts.** -/
theorem hostport_ensures :
    (recognizer octet Uri.Grammar.hostport).Ensures fun x => x ∈ Uri.Text.looseHostport := by
  have hhost := (hostname_ensures.mono fun x hx => show x ∈ Uri.Text.looseHostname +
    Uri.Text.IPv4address from .inl hx).alt (IPv4Address_ensures.mono fun x hx => .inr hx)
  have hdigits : (Recognizer.star (.satisfy Uri.Text.isDigit)).Ensures
      fun x => x ∈ (oneOf Uri.Text.isDigit)∗ :=
    fun _ _ h => mem_kstar_oneOf.2 (Recognizer.star_satisfy_mem h)
  have hcolon : (recognizer octet (lit ':')).Ensures (· ∈ ({bytes ":"} : Language Byte)) :=
    lit_ensures ':' 58 rfl
  have hport := hcolon.mul hdigits
  rw [recognizer_hostport]
  exact hhost.mul (M := 1 + {bytes ":"} * (oneOf Uri.Text.isDigit)∗)
    ((hport.mono fun x hx => .inr hx).opt (.inl rfl))

end Hostport

/-! ### The recognizer of an authority -/

/-- The alternative of registry names is not reached. -/
theorem recognizer_authority (s : List Byte) : recognizer octet Uri.Grammar.authority s =
    Recognizer.opt (.seq (.opt (recognizer octet Uri.Grammar.userinfo_at))
      (recognizer octet Uri.Grammar.hostport)) s := by
  rw [Uri.Grammar.authority, recognizer_choice, Recognizer.alt_of_lenient (lenient_server octet),
    Uri.Grammar.server, recognizer_opt, recognizer_pair, recognizer_opt]

section Whole

variable {a y : List Byte}

theorem recognizer_userinfo :
    recognizer octet Uri.Grammar.userinfo = .star (pieceOf ";:&=+$,") := by
  have hpiece : recognizer octet (.either [Uri.Grammar.unreserved, Uri.Grammar.escaped, lit ';',
      lit ':', lit '&', lit '=', lit '+', lit '$', lit ',']) = pieceOf ";:&=+$," :=
    recognizer_unreserved ";:&=+$," rfl rfl (by decide)
  rw [Uri.Grammar.userinfo, recognizer_forwardRef _ _ rfl]
  change recognizer octet (.repeat_ _) = _
  rw [recognizer_repeat, hpiece]

/-- A user with its at-sign is read. -/
theorem reads_userinfoAt {u : List Byte} (hu : u ∈ encoded ";:&=+$,") (z : List Byte) :
    (recognizer octet Uri.Grammar.userinfo_at).Reads (u ++ [64]) z := by
  rw [Uri.Grammar.userinfo_at, recognizer_pair, recognizer_userinfo]
  exact Recognizer.Reads.seq (reads_encoded rfl hu (.cons (c := 64) rfl (by decide) z))
    (reads_lit rfl z)

/-- Without an at-sign there is no user. -/
theorem userinfoAt_reject {u : List Byte} (hu : u ∈ encoded ";:&=+$,") {c : Byte}
    (hc : urlChar ";:&=+$," c = false) (h37 : c ≠ 37) (h64 : c ≠ 64) (z : List Byte) :
    recognizer octet Uri.Grammar.userinfo_at (u ++ c :: z) = .reject := by
  have hread := reads_encoded rfl hu (.cons hc h37 z)
  rw [Uri.Grammar.userinfo_at, recognizer_pair, recognizer_userinfo, hread.seq_apply,
    lit_reject (fun h => h64 (octet_injective (b := 64) h)) z]
  rfl

theorem userChar_of_regChar {c : Byte} (hc : urlChar "$,;:@&=+" c = false) :
    urlChar ";:&=+$," c = false := by
  refine Bool.eq_false_iff.2 fun h => ?_
  have hmono : urlChar "$,;:@&=+" c = true := urlChar_mono (by decide) c h
  rw [hmono] at hc
  cases hc

/-- What an authority consumes of a registry name. -/
theorem authority_regName (ha : a ∈ encoded "$,;:@&=+") {c : Byte}
    (hc : urlChar "$,;:@&=+" c = false) (h37 : c ≠ 37) (z : List Byte) :
    recognizer octet Uri.Grammar.authority (a ++ c :: z) =
      match recognizer octet Uri.Grammar.hostport (behindAt a ++ c :: z) with
      | .accept n => .accept (a.length - (behindAt a).length + n)
      | .incomplete => .incomplete
      | .reject => .accept 0 := by
  have huser := userChar_of_regChar hc
  have h64 : c ≠ 64 := by
    rintro rfl
    cases hc
  rw [recognizer_authority]
  -- without an at-sign the user is given back, and the host begins at the front
  rcases behindAt_cases ha with ⟨hno, hu⟩ | ⟨u, hu, hat⟩
  · have hnone : Recognizer.opt (recognizer octet Uri.Grammar.userinfo_at) (a ++ c :: z) =
        .accept 0 := by
      rw [Recognizer.opt, Recognizer.alt_of_reject (userinfoAt_reject hu huser h37 h64 z)]
      rfl
    rw [behindAt, if_neg hno, Nat.sub_self, Recognizer.opt, Recognizer.alt_apply,
      Recognizer.seq_of_accept hnone, List.drop_zero]
    cases recognizer octet Uri.Grammar.hostport (a ++ c :: z) with
    | accept n => rfl
    | incomplete => rfl
    | reject => rfl
  · have hread := (reads_userinfoAt hu (behindAt a ++ c :: z)).opt
    have hsplit : a ++ c :: z = u ++ [64] ++ (behindAt a ++ c :: z) := by
      rw [List.append_assoc u]
      exact (congrArg (· ++ c :: z) hat).trans (List.append_assoc u _ _)
    have hlength : a.length - (behindAt a).length = (u ++ [64]).length := by
      have hlength := congrArg List.length hat
      rw [List.length_append, List.length_cons] at hlength
      rw [List.length_append, List.length_singleton]
      omega
    rw [hlength, Recognizer.opt, Recognizer.alt_apply, hsplit, hread.seq_apply]
    cases recognizer octet Uri.Grammar.hostport (behindAt a ++ c :: z) with
    | accept n => rfl
    | incomplete => rfl
    | reject => rfl

theorem mem_regName (ha : a ∈ Uri.Text.regName) : a ≠ [] ∧ a ∈ encoded "$,;:@&=+" := by
  obtain ⟨p, hp, _, ⟨pieces, rfl, hpieces⟩, rfl⟩ := ha
  refine ⟨fun hnil => ?_, p :: pieces, rfl, List.forall_mem_cons.2 ⟨hp, hpieces⟩⟩
  have hne : p ≠ [] := (reads_piece rfl hp).1
  exact hne (List.append_eq_nil_iff.1 hnil).1

theorem behindAt_length (ha : a ∈ encoded "$,;:@&=+") : (behindAt a).length ≤ a.length := by
  rcases behindAt_cases ha with ⟨hno, -⟩ | ⟨u, -, hat⟩
  · rw [behindAt, if_neg hno]
  · have hlength := congrArg List.length hat
    rw [List.length_append, List.length_cons] at hlength
    omega

/-- What may follow an authority is not part of one. -/
theorem terminator {c : Byte} (hc : c ∈ bytes "/?#\n") : urlChar "$,;:@&=+" c = false ∧ c ≠ 37 ∧
    Uri.Text.labelChar c = false ∧ c ≠ 46 ∧ c ≠ 58 := by
  have hall : (bytes "/?#\n").all (fun c => decide (urlChar "$,;:@&=+" c = false ∧ c ≠ 37 ∧
    Uri.Text.labelChar c = false ∧ c ≠ 46 ∧ c ≠ 58)) = true := rfl
  exact of_decide_eq_true (List.all_eq_true.1 hall c hc)

/-- **A registry name is consumed** exactly if what follows its user is a host, with a port or
without. -/
theorem authority_whole_iff {c : Byte} (ha : a ∈ Uri.Text.regName) (hc : c ∈ bytes "/?#\n")
    (rest : List Byte) :
    (∃ r, Parses octets Uri.Grammar.authority (a ++ c :: rest) r ∧ r.verdict = .accept a.length) ↔
      behindAt a ∈ Uri.Text.looseHostport := by
  obtain ⟨hne, hencoded⟩ := mem_regName ha
  obtain ⟨hname, h37, hlabel, h46, h58⟩ := terminator hc
  obtain ⟨r, hr, hverdict⟩ := exists_parses octet_inLookup (n := 64) (a ++ c :: rest)
    (g := Uri.Grammar.authority) (of_decide_eq_true rfl) rfl
  have hle := behindAt_length hencoded
  rw [authority_regName hencoded hname h37] at hverdict
  constructor
  · rintro ⟨r', hr', hwhole⟩
    rw [hr'.unique hr, hverdict] at hwhole
    cases hhostport : recognizer octet Uri.Grammar.hostport (behindAt a ++ c :: rest) with
    | accept n =>
        rw [hhostport] at hwhole
        have hn : n = (behindAt a).length := by
          have hsum := Verdict.accept.inj hwhole
          omega
        have hloose := hostport_ensures _ _ hhostport
        rwa [hn, List.take_left] at hloose
    | incomplete =>
        rw [hhostport] at hwhole
        cases hwhole
    | reject =>
        -- the server is left out, and nothing of the name is consumed
        rw [hhostport] at hwhole
        exact absurd (List.length_eq_zero_iff.1 (Verdict.accept.inj hwhole).symm) hne
  · intro hloose
    have hread : recognizer octet Uri.Grammar.hostport (behindAt a ++ c :: rest) =
        .accept (behindAt a).length := reads_hostport hloose hlabel h46 h58 rest
    refine ⟨r, hr, hverdict.trans ?_⟩
    rw [hread]
    exact congrArg Verdict.accept (Nat.sub_add_cancel hle)

/-- The authority `u@h`. -/
theorem authority_whole_iff_user : ∃ r, Parses octets Uri.Grammar.authority (bytes "u@h/") r ∧
    r.verdict = .accept 3 := by
  refine (authority_whole_iff (a := bytes "u@h") (c := 47) ?_ (by decide) []).2 ?_
  · exact ⟨bytes "u", .inl ⟨117, by decide, rfl⟩, bytes "@h",
      mem_encoded (List.all_eq_true.1 rfl), rfl⟩
  · have hhost : bytes "h" ∈ Uri.Text.looseHostname :=
      ⟨[], Language.nil_mem_kstar _, bytes "h", ⟨bytes "h", .inl ⟨104, by decide, rfl⟩, [],
        .inl rfl, rfl⟩, rfl⟩
    exact ⟨bytes "h", .inl hhost, [], .inl rfl, rfl⟩

/-- Of the registry name `a_b` only the first letter is consumed. -/
theorem authority_prefix : bytes "a_b" ∈ Uri.Text.regName ∧ ∃ r,
    Parses octets Uri.Grammar.authority (bytes "a_b/") r ∧ r.verdict = .accept 1 := by
  obtain ⟨r, hr, hverdict⟩ := exists_parses octet_inLookup (n := 64) (bytes "a_b/")
    (g := Uri.Grammar.authority) (of_decide_eq_true rfl) rfl
  refine ⟨⟨bytes "a", .inl ⟨97, by decide, rfl⟩, bytes "_b", mem_encoded (List.all_eq_true.1 rfl),
    rfl⟩, r, hr, hverdict.trans ?_⟩
  decide

end Whole

end Hittop
