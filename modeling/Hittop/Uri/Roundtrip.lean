/-
**A URI text is recorded as what it was made of.**

The host is read as a user first, and given back where no at-sign follows; a host of four numbers is
tried as a name.  All of it ends in the one split of the text.

Main definitions:

* `Hittop.Uri.Text.absolute` — the text of a URI with an authority;
* `Hittop.Uri.ofParts` — the URI with these parts;
* `Hittop.Uri.assignParts` — what is assigned for them.

Main results:

* `Hittop.takes_userinfo`, `Hittop.refuses_userinfo` — a user, and a host that is tried as one;
* `Hittop.uri_roundtrip` — the text of a URI is accepted, and its parts are recorded.
-/

import Hittop.Uri.Authority
import Hittop.Uri.Port
import Hittop.Uri.Stale
import Hittop.Uri.Taking

set_option relaxedAutoImplicit false
set_option autoImplicit false

namespace Hittop

open scoped Computability
open Meaning
open Uri.Grammar (lit)
open Uri.Text (led path urics encoded urlChar labelChar isAlpha plainLabel)

namespace Uri.Text

/-- A label with single hyphens that begins with a letter. -/
def letterLabel : Language Byte := {x | x ∈ hyphenated ∧ ∃ a ∈ x.head?, isAlpha a = true}

/-- Labels with single hyphens, with dots between; the last begins with a letter. -/
def labels : Language Byte := (hyphenated * {bytes "."})∗ * letterLabel

/-- `scheme "://" [ userinfo "@" ] host [ ":" port ] path [ "?" query ] [ "#" fragment ]` -/
def absolute (scheme : List Byte) (user : Option (List Byte)) (host : List Byte)
    (port : Option (List Byte)) (segments : List (List Byte)) (q f : Option (List Byte)) :
    List Byte :=
  scheme ++ bytes "://" ++ user.elim [] (· ++ bytes "@") ++ host ++ led ":" port ++ path segments ++
    led "?" q ++ led "#" f

end Uri.Text

/-- The URI with these parts.  A path that is empty is no path. -/
def Uri.ofParts (scheme : List Byte) (user : Option (List Byte)) (host : List Byte)
    (port : Option (List Byte)) (segments : List (List Byte)) (q f : Option (List Byte)) :
    Uri Byte where
  uri := some (Uri.Text.absolute scheme user host port segments q f)
  scheme := some scheme
  user := user
  host := some host
  port := port.map fun d => decimal (d.map octet)
  path := if segments = [] then none else some (Uri.Text.path segments)
  query := q
  fragment := f
  path_segments := some segments

/-! ### Hosts -/

section Host

variable {x : List Byte}

/-- A label that begins with a letter can be the last one. -/
theorem toplabel_of_label (hx : x ∈ Uri.Text.domainlabel) (ha : ∃ a ∈ x.head?, isAlpha a = true) :
    x ∈ Uri.Text.toplabel := by
  obtain ⟨a, hhead, ha⟩ := ha
  rcases hx with ⟨c, -, rfl⟩ | ⟨_, ⟨_, ⟨c, -, rfl⟩, w, hw, rfl⟩, y, hy, rfl⟩
  · obtain rfl : c = a := Option.some.inj hhead
    exact .inl ⟨c, ha, rfl⟩
  · obtain rfl : c = a := Option.some.inj hhead
    exact .inr ⟨_, ⟨[c], ⟨c, ha, rfl⟩, w, hw, rfl⟩, y, hy, rfl⟩

/-- Labels with single hyphens are a host name that the rule reads. -/
theorem labels_loose (hx : x ∈ Uri.Text.labels) : x ∈ Uri.Text.looseHostname := by
  obtain ⟨labels, hlabels, top, ⟨htop, ha⟩, rfl⟩ := hx
  have hle : hyphenated ≤ 1 + plainLabel := fun y hy => .inr (mem_plainLabel.2 hy)
  have hlast := toplabel_of_label (mem_plainLabel.2 htop).1 ha
  exact ⟨labels, kstar_mono (mul_le_mul_left hle _) hlabels, top, ⟨top, hlast, [], .inl rfl,
    List.append_nil top⟩, rfl⟩

/-- A host has no characters that a user cannot have. -/
theorem host_userChars (hx : x ∈ Uri.Text.labels + Uri.Text.IPv4address) :
    ∀ c ∈ x, urlChar ";:&=+$," c = true := by
  have hmul {L M : Language Byte} (hL : L ≤ (Uri.Text.oneOf (urlChar ";:&=+$,"))∗)
      (hM : M ≤ (Uri.Text.oneOf (urlChar ";:&=+$,"))∗) :
      L * M ≤ (Uri.Text.oneOf (urlChar ";:&=+$,"))∗ :=
    (mul_le_mul' hL hM).trans_eq (kstar_mul_kstar _)
  have hdot : ({bytes "."} : Language Byte) ≤ (Uri.Text.oneOf (urlChar ";:&=+$,"))∗ := by
    rintro _ rfl
    exact mem_kstar_oneOf.2 (List.all_eq_true.1 rfl)
  have hlabel : hyphenated ≤ (Uri.Text.oneOf (urlChar ";:&=+$,"))∗ := by
    intro y hy
    refine mem_kstar_oneOf.2 fun c hc => ?_
    have hchar := (mem_domainlabel.1 (mem_plainLabel.2 hy).1).1 c hc
    rw [labelChar, Bool.or_eq_true, decide_eq_true_eq] at hchar
    rcases hchar with halphanum | rfl
    · rw [urlChar, show Cctype.test .isalnum (octet c) = true from halphanum]
      rfl
    · rfl
  have hnumber : Uri.Text.number ≤ (Uri.Text.oneOf (urlChar ";:&=+$,"))∗ :=
    fun y hy => hlabel (mem_plainLabel.1 (number_label hy).1)
  have hlast : Uri.Text.letterLabel ≤ (Uri.Text.oneOf (urlChar ";:&=+$,"))∗ :=
    fun y hy => hlabel hy.1
  refine mem_kstar_oneOf.1 ?_
  rcases hx with hname | haddress
  · have hlabels := (kstar_mono (hmul hlabel hdot)).trans_eq (kstar_idem _)
    exact hmul hlabels hlast hname
  · exact hmul hnumber (hmul hdot (hmul hnumber (hmul hdot (hmul hnumber (hmul hdot hnumber)))))
      haddress

end Host

/-! ### Users -/

section User

variable {x : List Byte} {c : Byte}

/-- **A user** is taken with its at-sign. -/
theorem takes_userinfo (hx : x ∈ encoded ";:&=+$,") (z : List Byte) (u : Uri Byte) :
    Takes (recordUserinfoAt octet) (x ++ bytes "@") z u (u.assignUser x) := by
  have hread : (recognizer octet Uri.Grammar.userinfo).Reads x (bytes "@" ++ z) := by
    rw [recognizer_userinfo]
    exact reads_encoded rfl hx (.cons (c := 64) rfl (by decide) z)
  have hat : Takes (unrecorded octet (lit '@')) (bytes "@") z (u.assignUser x) (u.assignUser x) :=
    Takes.lift (reads_lit rfl z)
  exact Takes.finish ((Takes.record hread).seq hat) rfl

/-- **A host is tried as a user** and given back, because no at-sign follows. -/
theorem refuses_userinfo (hx : x ∈ encoded ";:&=+$,") (hc : c ∈ bytes "/?#\n") (z : List Byte)
    (u : Uri Byte) : Refuses (recordUserinfoAt octet) (x ++ c :: z) u u.resetUser := by
  obtain ⟨hname, h37, -⟩ := terminator hc
  have hread : (recognizer octet Uri.Grammar.userinfo).Reads x (c :: z) := by
    rw [recognizer_userinfo]
    exact reads_encoded rfl hx (.cons (userChar_of_regChar hname) h37 z)
  have hat : Refuses (unrecorded octet (lit '@')) (c :: z) (u.assignUser x) (u.assignUser x) := by
    refine Refuses.lift (lit_reject (fun h => ?_) z)
    rw [octet_injective (a := c) (b := 64) h] at hname
    cases hname
  have htry : Takes (record (recognizer octet Uri.Grammar.userinfo) Uri.assignUser) x (c :: z) u
      (u.assignUser x) := Takes.record hread
  exact (htry.seq_refuses hat).finish

end User

/-! ### Authorities -/

section Authority

variable {h : List Byte} {user port : Option (List Byte)} {c : Byte}

/-- **A port** is taken and assigned. -/
theorem takes_port {d : List Byte} (hd : d ∈ Uri.Text.number)
    (hsize : decimal (d.map octet) < unsignedSize) (hc : Uri.Text.isDigit c = false) (z : List Byte)
    (u : Uri Byte) :
    Takes (recordPort octet) d (c :: z) u { u with port := some (decimal (d.map octet)) } := by
  have hread : (recognizer octet Uri.Grammar.port).Reads d (c :: z) := by
    rw [Uri.Grammar.port, recognizer_repeat, Uri.Grammar.digit, recognizer_charFilter]
    exact Recognizer.Reads.star_satisfy hd.2 (satisfy_reject hc)
  have hdigits : ∀ a ∈ d.map octet, Cctype.test .isdigit a = true := by
    intro a ha
    obtain ⟨b, hb, rfl⟩ := List.mem_map.1 ha
    exact hd.2 b hb
  have hnil : d.map octet ≠ [] := fun hnil => hd.1 (List.map_eq_nil_iff.1 hnil)
  have hlong : ¬ unsignedLongSize ≤ decimal (d.map octet) := by
    unfold unsignedSize at hsize
    unfold unsignedLongSize
    omega
  refine Takes.finish (Takes.lift hread) ?_
  rw [stoul_of_digits hdigits, if_neg hnil, if_neg hlong]
  change Except.ok (u.assignPort (decimal (d.map octet))) = _
  rw [Uri.assignPort, Nat.mod_eq_of_lt hsize]

/-- What is assigned for an authority. -/
def Uri.assignAuthority (user : Option (List Byte)) (host : List Byte) (port : Option (List Byte))
    (u : Uri Byte) : Uri Byte :=
  let v := (user.elim u.resetUser fun x => u.assignUser x).assignHost host
  port.elim v fun d => { v with port := some (decimal (d.map octet)) }

theorem takes_hostport (hh : h ∈ Uri.Text.labels + Uri.Text.IPv4address)
    (hport : ∀ d ∈ port, d ∈ Uri.Text.number ∧ decimal (d.map octet) < unsignedSize)
    (hc : c ∈ bytes "/?#\n") (z : List Byte) (u : Uri Byte) :
    Takes (recordHostport octet alt) (h ++ led ":" port) (c :: z) u
      (port.elim (u.assignHost h) fun d =>
        { u.assignHost h with port := some (decimal (d.map octet)) }) := by
  obtain ⟨-, -, hlabel, h46, h58⟩ := terminator hc
  have hhost : h ∈ Uri.Text.looseHostname + Uri.Text.IPv4address := hh.imp_left labels_loose
  have hread (e : Byte) (he : labelChar e = false) (h46 : e ≠ 46) (z : List Byte) :
      Takes (record (recognizer octet Uri.Grammar.host) Uri.assignHost) h (e :: z) u
        (u.assignHost h) := by
    rw [Uri.Grammar.host, recognizer_choice]
    exact Takes.record (reads_host hhost he h46 z)
  cases port with
  | none =>
      have hcolon : Refuses (unrecorded octet (lit ':')) (c :: z) (u.assignHost h)
          (u.assignHost h) :=
        Refuses.lift (lit_reject (fun h => h58 (octet_injective (b := 58) h)) z)
      exact (hread c hlabel h46 z).seq (Takes.opt_nil hcolon.seq_left)
  | some d =>
      obtain ⟨hd, hsize⟩ := hport d rfl
      have hcolon : Takes (unrecorded octet (lit ':')) (bytes ":") (d ++ c :: z) (u.assignHost h)
          (u.assignHost h) := Takes.lift (reads_lit rfl _)
      exact (hread 58 rfl (by decide) _).seq
        (hcolon.seq (takes_port hd hsize (not_digit hlabel) z _)).opt

/-- **An authority** is taken with its user, its host and its port. -/
theorem takes_authority (huser : ∀ x ∈ user, x ∈ encoded ";:&=+$,")
    (hh : h ∈ Uri.Text.labels + Uri.Text.IPv4address)
    (hport : ∀ d ∈ port, d ∈ Uri.Text.number ∧ decimal (d.map octet) < unsignedSize)
    (hc : c ∈ bytes "/?#\n") (z : List Byte) (u : Uri Byte) :
    Takes (recordAuthority octet alt) (user.elim [] (· ++ bytes "@") ++ (h ++ led ":" port))
      (c :: z) u (u.assignAuthority user h port) := by
  refine Takes.alt_left (Takes.opt ?_)
  cases user with
  | none =>
      have hchars : h ++ led ":" port ∈ encoded ";:&=+$," := by
        refine mem_encoded fun b hb => ?_
        rcases List.mem_append.1 hb with hb | hb
        · exact host_userChars hh b hb
        · cases port with
          | none => cases hb
          | some d =>
              rcases List.mem_cons.1 hb with rfl | hb
              · rfl
              · rw [urlChar, show Cctype.test .isalnum (octet b) = true from
                  alphanum_of_digit ((hport d rfl).1.2 b hb)]
                rfl
      exact (Takes.opt_nil (refuses_userinfo hchars hc z u)).nil_seq
        (takes_hostport hh hport hc z u.resetUser) rfl
  | some x => exact (takes_userinfo (huser x rfl) _ u).opt.seq (takes_hostport hh hport hc z _)

end Authority

/-! ### The URI -/

section Roundtrip

variable {s h y : List Byte} {user port q f : Option (List Byte)} {segments : List (List Byte)}

/-- What is assigned for a path, also where there is none. -/
def Uri.assignOptPath (segments : List (List Byte)) (u : Uri Byte) : Uri Byte :=
  if segments = [] then u.mutablePathSegments else u.assignSegments segments

/-- **A path behind an authority** is taken, also where there is none. -/
theorem takes_optPath (hsegments : ∀ x ∈ segments, x ∈ Uri.Text.segment) (hy : Stops pathChar y)
    (u : Uri Byte) :
    Takes (optionally alt (recordAbsPath octet)) (path segments) y u
      (u.assignOptPath segments) := by
  rw [Uri.assignOptPath]
  by_cases hne : segments = []
  · subst hne
    have hslash (v : Uri Byte) : Refuses (unrecorded octet (lit '/')) y v v :=
      Refuses.lift (hy.lit_reject (c := 47) rfl (by decide))
    have hpath : Refuses (recordAbsPath octet) y u u.mutablePathSegments := by
      rw [recordAbsPath, recordPath]
      exact Refuses.after ((hslash _).seq_left).finish
    exact Takes.opt_nil hpath
  · rw [if_neg hne]
    exact (takes_absPath hne hsegments hy u).opt

/-- What stands behind an authority begins with a character that ends it. -/
theorem behind_authority (segments : List (List Byte)) (q f : Option (List Byte))
    (rest : List Byte) :
    ∃ c z, path segments ++ (led "?" q ++ (led "#" f ++ 10 :: rest)) = c :: z ∧
      c ∈ bytes "/?#\n" := by
  cases segments with
  | cons x segments => exact ⟨47, _, rfl, by decide⟩
  | nil =>
      cases q with
      | some x => exact ⟨63, _, rfl, by decide⟩
      | none =>
          cases f with
          | some x => exact ⟨35, _, rfl, by decide⟩
          | none => exact ⟨10, _, rfl, by decide⟩

/-- **A scheme, an authority, a path and a query** are taken up to a fragment or the end of the
line. -/
theorem takes_absoluteURI (hs : s ∈ Uri.Text.scheme) (huser : ∀ x ∈ user, x ∈ encoded ";:&=+$,")
    (hh : h ∈ Uri.Text.labels + Uri.Text.IPv4address)
    (hport : ∀ d ∈ port, d ∈ Uri.Text.number ∧ decimal (d.map octet) < unsignedSize)
    (hsegments : ∀ x ∈ segments, x ∈ Uri.Text.segment) (hq : ∀ x ∈ q, x ∈ urics)
    (f : Option (List Byte)) (rest : List Byte) (u : Uri Byte) :
    Takes (recordAbsoluteURI octet alt)
      (s ++ (bytes ":" ++ (bytes "/" ++ (bytes "/" ++ (user.elim [] (· ++ bytes "@") ++
        (h ++ led ":" port) ++ path segments)) ++ led "?" q)))
      (led "#" f ++ 10 :: rest) u
      (q.elim (((u.assignScheme s).assignAuthority user h port).assignOptPath segments) fun x =>
        (((u.assignScheme s).assignAuthority user h port).assignOptPath segments).assignQuery x) :=
          by
  have hy : Stops referenceChar (10 :: rest) := .cons rfl (by decide) rest
  have hstop := hy.path q f
  obtain ⟨c, z, hbehind, hc⟩ := behind_authority segments q f rest
  have hslash (z : List Byte) (u : Uri Byte) : Takes (unrecorded octet (lit '/'))
      (bytes "/") z u u :=
    Takes.lift (reads_lit rfl z)
  have hcolon (z : List Byte) (u : Uri Byte) : Takes (unrecorded octet (lit ':'))
      (bytes ":") z u u :=
    Takes.lift (reads_lit rfl z)
  have hscheme (z : List Byte) :
      Takes (record (recognizer octet Uri.Grammar.scheme) Uri.assignScheme) s (58 :: z) u
        (u.assignScheme s) :=
    Takes.record (reads_scheme hs (by decide))
  have hauthority := takes_authority huser hh hport hc z (u.assignScheme s)
  rw [← hbehind] at hauthority
  have hnet : Takes (recordNetPath octet alt) _ _ _ _ :=
    (hslash _ _).seq ((hslash _ _).seq (hauthority.seq (takes_optPath hsegments hstop _)))
  have hhier : Takes (recordHierPart octet alt) _ _ _ _ :=
    hnet.alt_left.seq (takes_query hq (hy.query f) _)
  exact (hscheme _).seq ((hcolon _ _).seq hhier.alt_left)

/-- What is assigned for the parts of a URI. -/
def Uri.assignParts (s : List Byte) (user : Option (List Byte)) (h : List Byte)
    (port : Option (List Byte)) (segments : List (List Byte)) (q f : Option (List Byte))
    (u : Uri Byte) : Uri Byte :=
  let v := ((u.assignScheme s).assignAuthority user h port).assignOptPath segments
  let w := q.elim v fun x => v.assignQuery x
  f.elim w fun x => w.assignFragment x

theorem assignParts_empty : ({} : Uri Byte).assignParts s user h port segments q f =
    { Uri.ofParts s user h port segments q f with uri := none } := by
  cases segments <;> cases user <;> cases port <;> cases q <;> cases f <;> rfl

/-- **The text of a URI is accepted up to the end of its line, and its parts are recorded.** -/
theorem uri_roundtrip (hs : s ∈ Uri.Text.scheme) (huser : ∀ x ∈ user, x ∈ encoded ";:&=+$,")
    (hh : h ∈ Uri.Text.labels + Uri.Text.IPv4address)
    (hport : ∀ d ∈ port, d ∈ Uri.Text.number ∧ decimal (d.map octet) < unsignedSize)
    (hsegments : ∀ x ∈ segments, x ∈ Uri.Text.segment) (hq : ∀ x ∈ q, x ∈ urics)
    (hf : ∀ x ∈ f, x ∈ urics) (rest : List Byte) :
    Visits octets (uriVisitors octet) .make Uri.Grammar.URI_reference
      (Uri.Text.absolute s user h port segments q f ++ 10 :: rest) {}
      (.success (Uri.Text.absolute s user h port segments q f).length)
      (.ofParts s user h port segments q f) := by
  have hy : Stops referenceChar (10 :: rest) := .cons rfl (by decide) rest
  have habsolute := takes_absoluteURI hs huser hh hport hsegments hq f rest {}
  have hreference : Takes (recordReference octet alt) _ _ {}
      (({} : Uri Byte).assignParts s user h port segments q f) :=
    habsolute.alt_left.opt.seq (takes_fragment hf hy _)
  have htext : Uri.Text.absolute s user h port segments q f =
      s ++ (bytes ":" ++ (bytes "/" ++ (bytes "/" ++ (user.elim [] (· ++ bytes "@") ++
        (h ++ led ":" port) ++ path segments)) ++ led "?" q)) ++ led "#" f := by
    have hsplit : bytes "://" = bytes ":" ++ (bytes "/" ++ bytes "/") := rfl
    simp only [Uri.Text.absolute, hsplit, List.append_assoc]
  rw [← htext, assignParts_empty] at hreference
  have hvisits := visits_success hreference
  rw [List.take_left] at hvisits
  exact hvisits

/-- The URI `s://u@h:8/a?b#c`. -/
theorem uri_roundtrip_example :
    Visits octets (uriVisitors octet) .make Uri.Grammar.URI_reference
      (Uri.Text.absolute (bytes "s") (some (bytes "u")) (bytes "h") (some (bytes "8")) [bytes "a"]
        (some (bytes "b")) (some (bytes "c")) ++ 10 :: []) {} (.success 15)
      (.ofParts (bytes "s") (some (bytes "u")) (bytes "h") (some (bytes "8")) [bytes "a"]
        (some (bytes "b")) (some (bytes "c"))) := by
  have hscheme : bytes "s" ∈ Uri.Text.scheme :=
    ⟨bytes "s", ⟨115, rfl, rfl⟩, [], Language.nil_mem_kstar _, rfl⟩
  have huser : bytes "u" ∈ encoded ";:&=+$," := mem_encoded (List.all_eq_true.1 rfl)
  have hlabel : bytes "h" ∈ Uri.Text.letterLabel :=
    ⟨⟨bytes "h", ⟨by decide, List.all_eq_true.1 rfl⟩, [], Language.nil_mem_kstar _, rfl⟩,
      104, rfl, rfl⟩
  have hhost : bytes "h" ∈ Uri.Text.labels + Uri.Text.IPv4address :=
    .inl ⟨[], Language.nil_mem_kstar _, bytes "h", hlabel, rfl⟩
  have hport : bytes "8" ∈ Uri.Text.number := ⟨by decide, List.all_eq_true.1 rfl⟩
  have hsegment : bytes "a" ∈ Uri.Text.segment :=
    ⟨bytes "a", mem_encoded (List.all_eq_true.1 rfl), [], Language.nil_mem_kstar _, rfl⟩
  have hquery : bytes "b" ∈ urics := mem_encoded (List.all_eq_true.1 rfl)
  have hfragment : bytes "c" ∈ urics := mem_encoded (List.all_eq_true.1 rfl)
  refine uri_roundtrip hscheme ?_ hhost ?_ ?_ ?_ ?_ []
  · simpa using huser
  · intro d hd
    obtain rfl : bytes "8" = d := Option.some.inj hd
    exact ⟨hport, by decide⟩
  · simpa using hsegment
  · simpa using hquery
  · simpa using hfragment

end Roundtrip

end Hittop
