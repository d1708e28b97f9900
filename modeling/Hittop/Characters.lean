/-
**The characters of a rule.**

Three questions about a rule are answered by its leaves: which characters it accepts, if it is a
class of characters; which ones a text may begin with that it does not reject; and which ones can be
in a text that it accepts.

Main definitions:

* `Hittop.Rule.isClass`, `Hittop.Rule.test` — classes of characters;
* `Hittop.Rule.first` — the characters a rule does not reject at once;
* `Hittop.Rule.Within` — the leaves of a rule let through certain values only.

Main results:

* `Hittop.recognizer_class` — the recognizer of a class;
* `Hittop.recognizer_first` — a rule rejects what does not begin with one of its first characters;
* `Hittop.recognizer_ensures` — what is accepted has the properties of the leaves.
-/

import Hittop.Grammars
import Hittop.Library.Accepted
import Hittop.Library.Reads

set_option relaxedAutoImplicit false
set_option autoImplicit false

namespace Hittop

open Recognizer (Ensures Additive)

variable {ρ φ κ : Type}

/-! ### Classes of characters -/

namespace Rule

/-- The rule is built from single characters by choice and exclusion. -/
def isClass : Rule ρ φ → Bool
  | literal [_] | charFilter _ | anyChar => true
  | charClass gs | either gs => !gs.isEmpty && allClasses gs
  | unless_ a b => isClass a && isClass b
  | _ => false
where
  /-- All rules of a parameter pack are. -/
  allClasses : List (Rule ρ φ) → Bool
    | [] => true
    | g :: gs => isClass g && allClasses gs

/-- Whether a class contains a character. -/
def test (filter : φ → ℤ → Bool) : Rule ρ φ → ℤ → Bool
  | literal chs, z => decide (chs = [z])
  | charFilter f, z => filter f z
  | anyChar, _ => true
  | charClass gs, z | either gs, z => testAny gs z
  | unless_ a b, z => !test filter a z && test filter b z
  | _, _ => false
where
  /-- Whether one of the rules of a parameter pack does. -/
  testAny : List (Rule ρ φ) → ℤ → Bool
    | [], _ => false
    | g :: gs, z => test filter g z || testAny gs z

end Rule

mutual

/-- **The recognizer of a class** of characters. -/
theorem Env.recognizer_class (Γ : Env ρ φ κ) (refs : ρ → Recognizer κ) : ∀ g : Rule ρ φ,
    g.isClass = true → Γ.recognizer refs g = .satisfy fun c => g.test Γ.filter (Γ.toInt c)
  | .literal [ch], _ => by
      rw [Env.recognizer, Recognizer.text_singleton]
      refine congrArg Recognizer.satisfy (funext fun c => ?_)
      simp [Rule.test, eq_comm]
  | .charFilter f, _ => rfl
  | .anyChar, _ => rfl
  | .charClass gs, h | .either gs, h => by
      simp only [Rule.isClass, Bool.and_eq_true, Bool.not_eq_true'] at h
      rw [Env.recognizer]
      exact Env.recognizer_firstOf_class Γ refs gs h.1 h.2
  | .unless_ a b, h => by
      simp only [Rule.isClass, Bool.and_eq_true] at h
      rw [Env.recognizer, Env.recognizer_class Γ refs a h.1, Env.recognizer_class Γ refs b h.2,
        Recognizer.exclude_satisfy]
      rfl

theorem Env.recognizer_firstOf_class (Γ : Env ρ φ κ) (refs : ρ → Recognizer κ) :
    ∀ gs : List (Rule ρ φ), gs.isEmpty = false → Rule.isClass.allClasses gs = true →
      recognizer.firstOf Γ refs gs =
        .satisfy fun c => Rule.test.testAny Γ.filter gs (Γ.toInt c)
  | [g], _, h => by
      simp only [Rule.isClass.allClasses, Bool.and_true] at h
      simp only [recognizer.firstOf, Recognizer.alt_fail, Env.recognizer_class Γ refs g h,
        Rule.test.testAny, Bool.or_false]
  | g :: g' :: gs, _, h => by
      rw [Rule.isClass.allClasses, Bool.and_eq_true] at h
      rw [recognizer.firstOf, Env.recognizer_class Γ refs g h.1,
        Env.recognizer_firstOf_class Γ refs (g' :: gs) rfl h.2, Recognizer.alt_satisfy]
      rfl

end

/-- Whether a class of the grammars contains a character. -/
def has (g : Grammar) : ℤ → Bool := g.test Cctype.test

theorem recognizer_class {toInt : κ → ℤ} {g : Grammar} (h : g.isClass = true) :
    recognizer toInt g = .satisfy fun c => has g (toInt c) :=
  Env.recognizer_class (reading toInt) _ g h

theorem has_pair (a b : Grammar) (z : ℤ) : has (.either [a, b]) z = (has a z || has b z) := by
  simp only [has, Rule.test, Rule.test.testAny, Bool.or_false]

theorem has_unless (a b : Grammar) (z : ℤ) : has (.unless_ a b) z = (!has a z && has b z) := rfl

/-- A choice of single characters is a class. -/
theorem isClass_lits {text : List Char} (h : text ≠ []) :
    (Rule.either (text.map Uri.Grammar.lit) : Grammar).isClass = true := by
  have hall : ∀ text : List Char,
      Rule.isClass.allClasses (text.map Uri.Grammar.lit : List Grammar) = true := by
    intro text
    induction text with
    | nil => rfl
    | cons x text ih =>
        rw [List.map_cons, Rule.isClass.allClasses, ih]
        rfl
  rw [Rule.isClass, hall text]
  simpa using h

/-- It contains these characters. -/
theorem has_lits {text : List Char} (h : text.all (fun x => decide (x.toNat < 256)) = true)
    (c : Byte) :
    has (.either (text.map Uri.Grammar.lit)) (octet c) =
      decide (c ∈ text.map fun x => UInt8.ofNat x.toNat) := by
  rw [has, Rule.test]
  induction text with
  | nil => rfl
  | cons x text ih =>
      rw [List.all_cons, Bool.and_eq_true, decide_eq_true_eq] at h
      have hx : octet (UInt8.ofNat x.toNat) = ch x := by
        rw [octet, UInt8.toNat_ofNat', Nat.mod_eq_of_lt h.1]
        rfl
      have hlit : (Uri.Grammar.lit x).test Cctype.test (octet c) =
          decide (c = UInt8.ofNat x.toNat) := by
        simp only [Rule.test, List.cons.injEq, and_true, ← hx]
        exact decide_eq_decide.2 ⟨fun h => octet_injective h.symm, fun h => congrArg octet h.symm⟩
      rw [List.map_cons, List.map_cons, Rule.test.testAny, hlit, ih h.2]
      simp only [List.mem_cons, Bool.decide_or]

/-! ### First characters -/

/-- Whether a text that begins with the value `z` may not be rejected.  `refs` says so for the
forward references. -/
def Rule.first (filter : φ → ℤ → Bool) (refs : ρ → ℤ → Bool) : Rule ρ φ → ℤ → Bool
  | .literal [], _ | .token [], _ => true
  | .literal (ch :: _), z | .token (ch :: _), z => decide (z = ch)
  | .charFilter f, z => filter f z
  | .failure, _ => false
  | .charClass gs, z | .either gs, z => firstAny gs z
  | .concat gs, z | .impliedDelim _ gs, z => firstHead gs z
  | .unless_ a b, z => !(a.isClass && a.test filter z) && (!a.isClass || first filter refs b z)
  | .repeatAndThen a b _, z => first filter refs a z || first filter refs b z
  | .exactly n g, z | .atLeast n g, z | .between n _ g, z => decide (n = 0) || first filter refs g z
  | .forwardRef m, z => refs m z
  | .anyChar, _ | .success, _ | .opt _, _ | .repeat_ _, _ | .atMost _ _, _ | .inter _ _, _
  | .force _, _ | .trim _, _ => true
where
  /-- The alternatives of an `Either`. -/
  firstAny : List (Rule ρ φ) → ℤ → Bool
    | [], _ => false
    | g :: gs, z => first filter refs g z || firstAny gs z
  /-- The first part of a sequence. -/
  firstHead : List (Rule ρ φ) → ℤ → Bool
    | [], _ => true
    | g :: _, z => first filter refs g z

section

variable (Γ : Env ρ φ κ) {refs : ρ → Recognizer κ} {firsts : ρ → ℤ → Bool} {c : κ} {s : List κ}

theorem satisfy_reject {p : κ → Bool} (h : p c = false) :
    Recognizer.satisfy p (c :: s) = .reject := by
  simp [h]

theorem text_reject {ch : ℤ} {chs : List ℤ} (h : decide (Γ.toInt c = ch) = false) :
    Recognizer.text Γ.toInt (ch :: chs) (c :: s) = .reject :=
  Recognizer.seq_of_reject (satisfy_reject h)

mutual

/-- **A rule rejects** what does not begin with one of its first characters. -/
theorem Env.recognizer_first
    (hrefs : ∀ m, firsts m (Γ.toInt c) = false → refs m (c :: s) = .reject) : ∀ g : Rule ρ φ,
    g.first Γ.filter firsts (Γ.toInt c) = false → Γ.recognizer refs g (c :: s) = .reject
  | .literal [], h | .token [], h => by simp [Rule.first] at h
  | .literal (ch :: chs), h | .token (ch :: chs), h => text_reject Γ h
  | .charFilter f, h => satisfy_reject h
  | .failure, _ => rfl
  | .charClass gs, h | .either gs, h => by
      rw [Env.recognizer]
      exact Env.recognizer_firstOf_first hrefs gs h
  | .concat gs, h => by
      rw [Env.recognizer]
      cases gs with
      | nil => simp [Rule.first, Rule.first.firstHead] at h
      | cons g gs => exact Recognizer.seq_of_reject (Env.recognizer_first hrefs g h)
  | .impliedDelim d gs, h => by
      rw [Env.recognizer]
      cases gs with
      | nil => simp [Rule.first, Rule.first.firstHead] at h
      | cons g gs =>
          have hg := Env.recognizer_first hrefs g h
          cases gs with
          | nil => exact hg
          | cons g' gs => exact Recognizer.seq_of_reject hg
  | .unless_ a b, h => by
      simp only [Rule.first, Bool.and_eq_false_iff, Bool.not_eq_false', Bool.and_eq_true,
        Bool.or_eq_false_iff] at h
      rw [Env.recognizer]
      -- an `Unless` is refused by the one rule or by the other
      rcases h with ⟨hclass, htest⟩ | ⟨hclass, hb⟩
      · rw [Env.recognizer_class Γ refs a hclass, Recognizer.exclude_apply]
        simp [htest]
      · rw [Env.recognizer_class Γ refs a hclass, Recognizer.exclude_apply,
          Env.recognizer_first hrefs b hb]
        cases htest : a.test Γ.filter (Γ.toInt c) <;> simp [htest]
  | .repeatAndThen a b size, h => by
      rw [Rule.first, Bool.or_eq_false_iff] at h
      have ha := Env.recognizer_first hrefs a h.1
      have hb := Env.recognizer_first hrefs b h.2
      rw [Env.recognizer]
      exact Recognizer.starThen_of_reject ha hb
  | .exactly 0 g, h | .atLeast 0 g, h | .between 0 n g, h => by simp [Rule.first] at h
  | .exactly (n + 1) g, h => by
      rw [Rule.first, Bool.or_eq_false_iff] at h
      exact Recognizer.seq_of_reject (Env.recognizer_first hrefs g h.2)
  | .atLeast (n + 1) g, h | .between (n + 1) _ g, h => by
      rw [Rule.first, Bool.or_eq_false_iff] at h
      exact Recognizer.seq_of_reject
        (Recognizer.seq_of_reject (Env.recognizer_first hrefs g h.2))
  | .forwardRef m, h => hrefs m h
  | .anyChar, h | .success, h | .opt _, h | .repeat_ _, h | .atMost _ _, h | .inter _ _, h
  | .force _, h | .trim _, h => by simp [Rule.first] at h

theorem Env.recognizer_firstOf_first
    (hrefs : ∀ m, firsts m (Γ.toInt c) = false → refs m (c :: s) = .reject) :
    ∀ gs : List (Rule ρ φ), Rule.first.firstAny Γ.filter firsts gs (Γ.toInt c) = false →
      recognizer.firstOf Γ refs gs (c :: s) = .reject
  | [], _ => rfl
  | g :: gs, h => by
      rw [Rule.first.firstAny, Bool.or_eq_false_iff] at h
      rw [recognizer.firstOf,
        Recognizer.alt_of_reject (Env.recognizer_first hrefs g h.1)]
      exact Env.recognizer_firstOf_first hrefs gs h.2

end

end

/-- The first characters of a metafunction, `n` levels of references deep. -/
def Name.firstTo : ℕ → Name → ℤ → Bool
  | 0, _ => fun _ => true
  | n + 1, m => m.type.first Cctype.test (firstTo n)

/-- Whether a text that begins with the value `z` may not be rejected. -/
def first (g : Grammar) : ℤ → Bool := g.first Cctype.test (Name.firstTo 4)

/-- **A rule of the grammars rejects** what does not begin with one of its first characters. -/
theorem recognizer_first {toInt : κ → ℤ} {g : Grammar} {c : κ} (h : first g (toInt c) = false)
    (s : List κ) : recognizer toInt g (c :: s) = .reject := by
  have hnames : ∀ n m, Name.firstTo n m (toInt c) = false →
      m.recognizerTo toInt n (c :: s) = .reject := by
    intro n
    induction n with
    | zero => exact fun m hm => by simp [Name.firstTo] at hm
    | succ n ih => exact fun m hm => Env.recognizer_first (reading toInt) ih m.type hm
  exact Env.recognizer_first (reading toInt) (hnames 4) g h

/-! ### Characters of accepted texts -/

/-- A leaf lets through the values `p` only, where `class` are the character functions that do and
`r` the references that do.  Nothing is said of the rules that go on to the end of the input. -/
def Rule.Within (p : ℤ → Bool) (class_ : φ → Bool) (r : ρ → Bool) : Rule ρ φ → Prop
  | .literal chs => chs.all p = true
  | .token get => get.all p = true
  | .charFilter f => class_ f = true
  | .forwardRef m => r m = true
  | .anyChar | .force _ | .trim _ => False
  | .charClass _ | .success | .failure | .concat _ | .either _ | .opt _ | .unless_ _ _ | .repeat_ _
  | .repeatAndThen _ _ _ | .exactly _ _ | .atLeast _ _ | .atMost _ _ | .between _ _ _ | .inter _ _
  | .impliedDelim _ _ => True

instance (p : ℤ → Bool) (class_ : φ → Bool) (r : ρ → Bool) :
    DecidablePred (Rule.Within p class_ r)
  | .literal _ | .token _ | .charFilter _ | .forwardRef _ => inferInstanceAs (Decidable (_ = true))
  | .anyChar | .force _ | .trim _ => .isFalse id
  | .charClass _ | .success | .failure | .concat _ | .either _ | .opt _ | .unless_ _ _ | .repeat_ _
  | .repeatAndThen _ _ _ | .exactly _ _ | .atLeast _ _ | .atMost _ _ | .between _ _ _ | .inter _ _
  | .impliedDelim _ _ => .isTrue trivial

section

variable (Γ : Env ρ φ κ) {refs : ρ → Recognizer κ} {p : ℤ → Bool} {class_ : φ → Bool} {r : ρ → Bool}
  {P : List κ → Prop}

mutual

/-- **What a rule accepts** has the properties of its leaves. -/
theorem Env.recognizer_ensures (hP : Additive P) (hchar : ∀ c, p (Γ.toInt c) = true → P [c])
    (hclass : ∀ f, class_ f = true → ∀ c, Γ.filter f (Γ.toInt c) = true → P [c])
    (hrefs : ∀ m, r m = true → Ensures (refs m) P) :
    ∀ g : Rule ρ φ, g.Each (Rule.Within p class_ r) → Ensures (Γ.recognizer refs g) P
  | .literal chs, hg | .token chs, hg =>
      Ensures.text hP chs fun c hc => hchar c (List.all_eq_true.1 hg _ hc)
  | .charFilter f, hg => Ensures.satisfy (hclass f hg)
  | .anyChar, hg => hg.elim
  | .success, _ => Ensures.eps hP.nil
  | .failure, _ => Ensures.fail
  | .charClass gs, hg | .either gs, hg => by
      rw [Env.recognizer]
      exact Env.recognizer_firstOf_ensures hP hchar hclass hrefs gs hg.2
  | .concat gs, hg => by
      rw [Env.recognizer]
      exact Env.recognizer_inSequence_ensures hP hchar hclass hrefs gs hg.2
  | .opt g, hg => by
      rw [Env.recognizer]
      exact (Env.recognizer_ensures hP hchar hclass hrefs g hg.2).opt hP.nil
  | .unless_ a b, hg => by
      rw [Env.recognizer]
      exact (Env.recognizer_ensures hP hchar hclass hrefs b hg.2.2).exclude
  | .repeat_ g, hg => by
      rw [Env.recognizer]
      exact (Env.recognizer_ensures hP hchar hclass hrefs g hg.2).star hP
  | .repeatAndThen a b size, hg => by
      rw [Env.recognizer]
      exact (Env.recognizer_ensures hP hchar hclass hrefs a hg.2.1).starThen hP
        (Env.recognizer_ensures hP hchar hclass hrefs b hg.2.2) size
  | .exactly n g, hg => by
      rw [Env.recognizer]
      exact (Env.recognizer_ensures hP hchar hclass hrefs g hg.2).power hP n
  | .atLeast n g, hg => by
      have h := Env.recognizer_ensures hP hchar hclass hrefs g hg.2
      rw [Env.recognizer]
      exact (h.power hP n).seq hP (h.star hP)
  | .atMost n g, hg => by
      rw [Env.recognizer]
      exact (Env.recognizer_ensures hP hchar hclass hrefs g hg.2).upTo hP n
  | .between m n g, hg => by
      have h := Env.recognizer_ensures hP hchar hclass hrefs g hg.2
      rw [Env.recognizer]
      exact (h.power hP m).seq hP (h.upTo hP (n - m))
  | .inter item delim, hg => by
      have hitem := Env.recognizer_ensures hP hchar hclass hrefs item hg.2.1
      have hdelim := Env.recognizer_ensures hP hchar hclass hrefs delim hg.2.2
      rw [Env.recognizer]
      exact (hitem.seq hP ((hdelim.seq hP hitem).star hP)).opt hP.nil
  | .impliedDelim d gs, hg => by
      rw [Env.recognizer]
      exact Env.recognizer_delimited_ensures hP hchar hclass hrefs
        (Env.recognizer_ensures hP hchar hclass hrefs d hg.2.1) gs hg.2.2
  | .force _, hg | .trim _, hg => hg.1.elim
  | .forwardRef m, hg => hrefs m hg

theorem Env.recognizer_inSequence_ensures (hP : Additive P)
    (hchar : ∀ c, p (Γ.toInt c) = true → P [c])
    (hclass : ∀ f, class_ f = true → ∀ c, Γ.filter f (Γ.toInt c) = true → P [c])
    (hrefs : ∀ m, r m = true → Ensures (refs m) P) :
    ∀ gs : List (Rule ρ φ), Rule.Each.eachOf (Rule.Within p class_ r) gs →
      Ensures (recognizer.inSequence Γ refs gs) P
  | [], _ => Ensures.eps hP.nil
  | g :: gs, hg => by
      obtain ⟨hhead, htail⟩ := Rule.eachOf_cons.1 hg
      exact (Env.recognizer_ensures hP hchar hclass hrefs g hhead).seq hP
        (Env.recognizer_inSequence_ensures hP hchar hclass hrefs gs htail)

theorem Env.recognizer_firstOf_ensures (hP : Additive P)
    (hchar : ∀ c, p (Γ.toInt c) = true → P [c])
    (hclass : ∀ f, class_ f = true → ∀ c, Γ.filter f (Γ.toInt c) = true → P [c])
    (hrefs : ∀ m, r m = true → Ensures (refs m) P) :
    ∀ gs : List (Rule ρ φ), Rule.Each.eachOf (Rule.Within p class_ r) gs →
      Ensures (recognizer.firstOf Γ refs gs) P
  | [], _ => Ensures.fail
  | g :: gs, hg => by
      obtain ⟨hhead, htail⟩ := Rule.eachOf_cons.1 hg
      exact (Env.recognizer_ensures hP hchar hclass hrefs g hhead).alt
        (Env.recognizer_firstOf_ensures hP hchar hclass hrefs gs htail)

theorem Env.recognizer_delimited_ensures (hP : Additive P)
    (hchar : ∀ c, p (Γ.toInt c) = true → P [c])
    (hclass : ∀ f, class_ f = true → ∀ c, Γ.filter f (Γ.toInt c) = true → P [c])
    (hrefs : ∀ m, r m = true → Ensures (refs m) P) {d : Recognizer κ} (hd : Ensures d P) :
    ∀ gs : List (Rule ρ φ), Rule.Each.eachOf (Rule.Within p class_ r) gs →
      Ensures (recognizer.delimited Γ refs d gs) P
  | [], _ => Ensures.eps hP.nil
  | [g], hg => Env.recognizer_ensures hP hchar hclass hrefs g (Rule.eachOf_cons.1 hg).1
  | g :: g' :: gs, hg => by
      obtain ⟨hhead, htail⟩ := Rule.eachOf_cons.1 hg
      exact (Env.recognizer_ensures hP hchar hclass hrefs g hhead).seq hP
        (hd.seq hP (Env.recognizer_delimited_ensures hP hchar hclass hrefs hd (g' :: gs) htail))

end

end

/-- **What a rule of the grammars accepts.**  The references `r` are checked along with it. -/
theorem recognizer_ensures {toInt : κ → ℤ} {p : ℤ → Bool} {class_ : Cctype → Bool} {r : Name → Bool}
    {P : List κ → Prop} (hP : Additive P) (hchar : ∀ c, p (toInt c) = true → P [c])
    (hclass : ∀ f, class_ f = true → ∀ c, f.test (toInt c) = true → p (toInt c) = true)
    (hr : ∀ m, r m = true → m.settled = true ∧
      m.type.Each (Rule.Within p class_ fun m' => r m' && m.below m')) {g : Grammar}
    (hg : g.Each (Rule.Within p class_ r)) : Ensures (recognizer toInt g) P := by
  have hfilter : ∀ f, class_ f = true → ∀ c, f.test (toInt c) = true → P [c] :=
    fun f hf c hc => hchar c (hclass f hf c hc)
  refine Env.recognizer_ensures (reading toInt) hP hchar hfilter (fun m hm => ?_) g hg
  induction hn : m.level using Nat.strongRecOn generalizing m with
  | ind n ih =>
      rw [m.recognizer_eq toInt (hr m hm).1]
      refine Env.recognizer_ensures (reading toInt) hP hchar hfilter (fun m' hm' => ?_) m.type
        (hr m hm).2
      simp only [Name.below, Bool.and_eq_true, decide_eq_true_eq] at hm'
      exact ih m'.level (hn ▸ hm'.2.2) m' hm'.1 rfl

/-! ### Single characters -/

section Literals

variable {x : Char} {b : Byte}

/-- A literal accepts its character. -/
theorem lit_ensures (x : Char) (b : Byte) (hb : octet b = ch x) :
    Recognizer.Ensures (recognizer octet (Uri.Grammar.lit x)) fun y => y = [b] := by
  rw [recognizer_lit]
  refine Recognizer.Ensures.satisfy fun c hc => ?_
  rw [octet_injective ((of_decide_eq_true hc).trans hb.symm)]

theorem reads_lit (h : octet b = ch x) (y : List Byte) :
    (recognizer octet (Uri.Grammar.lit x)).Reads [b] y := by
  rw [recognizer_lit]
  exact Recognizer.Reads.satisfy (decide_eq_true h)

theorem lit_reject (h : octet b ≠ ch x) (y : List Byte) :
    recognizer octet (Uri.Grammar.lit x) (b :: y) = .reject := by
  rw [recognizer_lit]
  exact satisfy_reject (decide_eq_false h)

/-- A character is accepted where the text begins with it. -/
theorem lit_eq_accept (hb : octet b = ch x) {s : List Byte} {n : ℕ} :
    recognizer octet (Uri.Grammar.lit x) s = .accept n ↔ n = 1 ∧ ∃ t, s = b :: t := by
  constructor
  · intro h
    have htake := lit_ensures x b hb s n h
    cases s with
    | nil => simp [recognizer_lit] at h
    | cons c s =>
        rw [recognizer_lit, Recognizer.satisfy_cons] at h
        split at h
        · cases h
          exact ⟨rfl, s, congrArg (· :: s) (List.singleton_inj.1 htake)⟩
        · cases h
  · rintro ⟨rfl, t, rfl⟩
    exact reads_lit hb t

end Literals

end Hittop
