/-
**The JSON grammar** of `hittop/json/grammar.h`.

Main definitions:

* `Hittop.Json.Grammar.Value` — a JSON value, the rule all others refer back to;
* `Hittop.Json.Grammar.StringContents` — what stands between the quotes of a string.
-/

import Hittop.Uri.Grammar

set_option relaxedAutoImplicit false
set_option autoImplicit false

namespace Hittop.Json.Grammar

open Uri.Grammar (lit)

def digit : Grammar := .charFilter .isdigit
def digit_1_9 : Grammar := .unless_ (lit '0') digit
def hex_digit : Grammar := .charFilter .isxdigit
def control_char : Grammar := .charFilter .iscntrl

def Value : Grammar := .forwardRef .Value_

def StringContents : Grammar :=
  .repeat_ (.either [
    .unless_ (.either [lit '"', lit '\\', control_char]) .anyChar,
    .concat [lit '\\',
      .either [lit '"', lit '\\', lit '/', lit 'b', lit 'f', lit 'n', lit 'r', lit 't',
        .concat [lit 'u', .exactly 4 hex_digit]]]])

def String : Grammar := .trim (.concat [lit '"', StringContents, lit '"'])

def Number : Grammar :=
  .trim (.concat [
    .opt (lit '-'),
    .either [lit '0', .concat [digit_1_9, .repeat_ digit]],
    .opt (.concat [lit '.', .atLeast 1 digit]),
    .opt (.concat [.either [lit 'e', lit 'E'], .opt (.either [lit '+', lit '-']),
      .atLeast 1 digit])])

namespace tokens

def True : Grammar := .token ("true".toList.map ch)
def False : Grammar := .token ("false".toList.map ch)
def Null : Grammar := .token ("null".toList.map ch)

end tokens

def Null : Grammar := tokens.Null

def Property : Grammar := .concat [.trim String, lit ':', .trim Value]

def Object : Grammar := .trim (.concat [lit '{', .inter Property (lit ','), lit '}'])

def Array : Grammar := .trim (.concat [lit '[', .inter (.trim Value) (lit ','), lit ']'])

def Boolean : Grammar := .trim (.either [tokens.True, tokens.False])

def Value_type : Grammar := .either [String, Number, Object, Array, Boolean, Null]

end Hittop.Json.Grammar
