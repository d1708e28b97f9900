/-
**Parsing a range, with or without a visitor.**

`Parse<G>(input)` runs `OptimizedParser<G>`; `Parse<G>(input, visitor)` hands the visitor a runner
when the visitor accepts `G`, and otherwise runs `Parser<G>`, passing the visitor on to the rules
inside.  Both are one function here, `Hittop.parse`, whose `args` is the parameter pack: `none` for
the call without a visitor.

The parser is recursive through `ForwardRef` and through the visitors, so the functions carry
`fuel`, which bounds the depth of the calls and the length of every loop.  Running out of it is a
fault of the model like the faults of the program: an index outside a lookup table, the `back()` of
an empty buffer, a thrown exception.

Main definitions:

* `Hittop.Fault`, `Hittop.Exec` — what ends a run without a result, and a run over a state;
* `Hittop.Body`, `Hittop.Visitors` — what a visitor does with the runner it is handed;
* `Hittop.Env.operatorCall` — the `operator()` of the selected parser;
* `Hittop.parse`, `Hittop.parser` — `Parse<G>(input, args...)` and `Parser<G>{}(input, args...)`;
* `Hittop.Parses`, `Hittop.Visits` — the parse without and with a visitor returns.
-/

import Hittop.Rule

set_option relaxedAutoImplicit false
set_option autoImplicit false

namespace Hittop

/-! ### Runs -/

/-- What ends a run without a result. -/
inductive Fault
  /-- The model's own bound on calls and loops. -/
  | outOfFuel
  /-- `lookup[*next]` with an index outside the table. -/
  | lookupIndex
  /-- `back()` of an empty circular buffer. -/
  | emptyBuffer
  /-- The grammar does not compile. -/
  | undefined
  /-- `std::invalid_argument`. -/
  | invalidArgument
  /-- `std::out_of_range`. -/
  | outOfRange
  /-- `std::runtime_error`. -/
  | runtimeError
  deriving DecidableEq, Repr

/-- A run over a state of the visitors. -/
abbrev Exec (σ : Type) := StateT σ (Except Fault)

/-- The run that ends in a fault. -/
def Exec.fault {σ α : Type} (e : Fault) : Exec σ α := fun _ => .error e

section Loops

variable {ρ φ κ σ : Type}

/-- The loop of `Parser<Repeat<Grammar>>`, from the beginning of `s`. -/
def repeatLoop (parseGrammar : List κ → Exec σ ParseResult) : ℕ → List κ → Exec σ ParseResult
  | 0, _ => Exec.fault .outOfFuel
  | k + 1, s => do
      let result ← parseGrammar s
      if result.ok then
        -- no progress: running another time would do the same again
        if result.pos = 0 then pure (.success 0)
        else do
          let rest ← repeatLoop parseGrammar k (s.drop result.pos)
          pure (rest.advance result.pos)
      else if result.error = .incomplete then pure result
      else pure (.success 0)

/-- The first loop of `Parser<RepeatAndThen>`: `prior` is the circular buffer of prior successes,
the latest first.  It ends in an `INCOMPLETE` result or in the buffer. -/
def climb (parseRepeated : List κ → Exec σ ParseResult) (size : ℕ) (s : List κ) :
    ℕ → List ℕ → Exec σ (ParseResult ⊕ List ℕ)
  | 0, _ => Exec.fault .outOfFuel
  | _ + 1, [] => Exec.fault .emptyBuffer
  | k + 1, back :: older => do
      let result ← parseRepeated (s.drop back)
      if result.ok then
        if result.pos = 0 then pure (.inr (back :: older))
        -- `push_back` on a full buffer drops the oldest position
        else climb parseRepeated size s k (((back + result.pos) :: back :: older).take size)
      else if result.error = .incomplete then pure (.inl (result.advance back))
      else pure (.inr (back :: older))

/-- The second loop of `Parser<RepeatAndThen>`: try `Rest` at the latest prior success, and
"unparse" one iteration as long as it fails. -/
def fallBack (parseRest : List κ → Exec σ ParseResult) (s : List κ) :
    List ℕ → Exec σ ParseResult
  | [] => Exec.fault .emptyBuffer
  | [back] => do
      let result ← parseRest (s.drop back)
      pure (result.advance back)
  | back :: older => do
      let result ← parseRest (s.drop back)
      if result.ok then pure (result.advance back)
      else if result.error = .incomplete then pure (result.advance back)
      else fallBack parseRest s older

/-- `CharClassTester<Rules...>`: the entry of the lookup table for a character. -/
def charClassTester (parser : Rule ρ φ → List κ → Exec σ ParseResult) (ch : κ) :
    List (Rule ρ φ) → Exec σ Bool
  | [] => pure false
  | first :: rest => do
      let result ← parser first [ch]
      if result.ok then pure true else charClassTester parser ch rest

end Loops

/-- `std::mismatch`: how far two ranges agree. -/
def mismatch : List ℤ → List ℤ → ℕ
  | a :: as, b :: bs => if a = b then mismatch as bs + 1 else 0
  | _, _ => 0

/-- `Parser<Token<T>>::operator()`. -/
def parseToken (get input : List ℤ) : ParseResult :=
  let n := min input.length get.length
  let diffAt := mismatch input get
  if diffAt = n then
    if input.length < get.length then ⟨diffAt, .incomplete⟩ else .success diffAt
  else ⟨diffAt, .badChar⟩

/-- `operator()` of the selected parser.  `inherited` runs `Parser` of another rule on the same
range, `parse` is `Parse` with the same arguments, and `table` is the plain parser the lookup table
of a `CharClass` is built with. -/
def Env.operatorCall {ρ φ κ σ : Type} (Γ : Env ρ φ κ)
    (inherited parse table : Rule ρ φ → List κ → Exec σ ParseResult) (k : ℕ) :
    Special ρ φ → List κ → Exec σ ParseResult
  | .inherits base, s => inherited base s
  | .forwardRef m, s => inherited (Γ.type m) s
  | .success, _ => pure (.success 0)
  | .failure, _ => pure ⟨0, .unknown⟩
  | .anyChar, [] => pure ⟨0, .incomplete⟩
  | .anyChar, _ :: _ => pure (.success 1)
  | .literal _, [] => pure ⟨0, .incomplete⟩
  | .literal ch, c :: _ =>
      if Γ.toInt c = ch then pure (.success 1) else pure ⟨0, .badChar⟩
  | .charFilter _, [] => pure ⟨0, .incomplete⟩
  | .charFilter f, c :: _ =>
      if Γ.filter f (Γ.toInt c) then pure (.success 1) else pure ⟨0, .badChar⟩
  | .charClass _, [] => pure ⟨0, .incomplete⟩
  | .charClass rules, c :: _ =>
      if Γ.inTable (Γ.toInt c) then do
        let entry ← charClassTester table c rules
        if entry then pure (.success 1) else pure ⟨0, .badChar⟩
      else Exec.fault .lookupIndex
  | .token get, s => pure (parseToken get (s.map Γ.toInt))
  | .concat first second, s => do
      let firstResult ← parse first s
      if firstResult.ok then do
        let result ← parse second (s.drop firstResult.pos)
        pure (result.advance firstResult.pos)
      else pure firstResult
  | .either first second, s => do
      let firstResult ← parse first s
      if firstResult.ok || decide (firstResult.error = .incomplete) then pure firstResult
      else parse second s
  | .unless_ rejectGrammar defaultGrammar, s => do
      let rejectResult ← parse rejectGrammar s
      if rejectResult.error = .incomplete then pure rejectResult
      else if rejectResult.ok then pure ⟨rejectResult.pos, .failedCondition⟩
      else parse defaultGrammar s
  | .repeat_ grammar, s => repeatLoop (parse grammar) k s
  | .repeatAndThen repeated rest size, s => do
      match ← climb (parse repeated) size s k ([0].take size) with
      | .inl result => pure result
      | .inr prior => fallBack (parse rest) s prior
  | .force grammar, s => do
      let result ← parse grammar s
      pure (.success result.pos)
  | .undefined, _ => Exec.fault .undefined

/-! ### Visitors -/

/-- What a runner returns to a visitor: the range that was parsed and the error. -/
structure RangeResult (κ : Type) where
  get : List κ
  error : ParseError

/-- Whether the parse succeeded. -/
def RangeResult.ok {κ : Type} (r : RangeResult κ) : Bool := decide (r.error = .none)

/-- The body of a visitor's `operator()`, stopped at its next call of the runner. -/
inductive Body (κ ν σ : Type) where
  /-- Return, leaving the state. -/
  | done (st : σ)
  /-- Throw an exception. -/
  | throw (e : Fault)
  /-- Call the runner (`copy`: a copy of it) with `args`, which starts in the state `st`, and go
  on with the result and the state it leaves. -/
  | run (copy : Bool) (args : Option ν) (st : σ) (next : RangeResult κ → σ → Body κ ν σ)

/-- A family of visitors `ν` over states `σ`: `operator` says which rules a visitor is callable
with, and what it does. -/
structure Visitors (ρ φ κ ν σ : Type) where
  operator : ν → Rule ρ φ → Option (σ → Body κ ν σ)

section Run

variable {ρ φ κ ν σ : Type}

/-- Run a visitor's body.  `runner` runs the parser for one call; `result` is the result the
runner object holds, if it has been called. -/
def runBody (runner : Option ν → Exec σ ParseResult) (s : List κ) :
    Body κ ν σ → Option ParseResult → Exec σ (Option ParseResult)
  | .done st, result => fun _ => .ok (result, st)
  | .throw e, _ => Exec.fault e
  | .run copy args st next, result => fun _ =>
      match runner args st with
      | .error e => .error e
      | .ok (r, st') =>
          -- a call on a copy of the runner leaves the result of the original alone
          runBody runner s (next ⟨s.take r.pos, r.error⟩ st') (if copy then result else some r) st'

/-- `ParserRunner::consume()`: the result the runner holds, or that of calling it now. -/
def consume (call : Exec σ ParseResult) : Option ParseResult → Exec σ ParseResult
  | some result => pure result
  | none => call

variable (Γ : Env ρ φ κ) (V : Visitors ρ φ κ ν σ)

mutual

/-- `Parse<G>(s, args...)`. -/
def parse : ℕ → Option ν → Rule ρ φ → List κ → Exec σ ParseResult
  | 0, _, _, _ => Exec.fault .outOfFuel
  | n + 1, none, g, s => parser n none (Γ.optimized g) s
  | n + 1, some v, g, s =>
      match V.operator v g with
      | none => parser n (some v) g s
      | some body => fun st =>
          (runBody (fun args => parse n args g s) s (body st) none >>=
            consume (parse n none g s)) st

/-- `Parser<G>{}(s, args...)`. -/
def parser : ℕ → Option ν → Rule ρ φ → List κ → Exec σ ParseResult
  | 0, _, _, _ => Exec.fault .outOfFuel
  | n + 1, args, g, s =>
      Γ.operatorCall (parser n args) (parse n args) (parser n none) n (Γ.special g) s

end

end Run

/-- The empty family of visitors. -/
def noVisitors (ρ φ κ : Type) : Visitors ρ φ κ Empty Unit := ⟨fun v => v.elim⟩

/-- `Parse<G>(s)` returns `r`. -/
def Parses {ρ φ κ : Type} (Γ : Env ρ φ κ) (g : Rule ρ φ) (s : List κ) (r : ParseResult) : Prop :=
  ∃ n, parse Γ (noVisitors ρ φ κ) n none g s () = .ok (r, ())

/-- `Parse<G>(s, visitor)` returns `r`; it takes the visitors from the state `st` to `st'`. -/
def Visits {ρ φ κ ν σ : Type} (Γ : Env ρ φ κ) (V : Visitors ρ φ κ ν σ) (v : ν) (g : Rule ρ φ)
    (s : List κ) (st : σ) (r : ParseResult) (st' : σ) : Prop :=
  ∃ n, parse Γ V n (some v) g s st = .ok (r, st')

end Hittop
