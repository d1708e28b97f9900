/-
**How the rules of a request head read.**

A header ends where a line ends that no white space follows.  What comes before is read by rules
that take a carriage return in a fold only; the alternative of quoted strings, which would take any,
is never tried, because the one before it does not reject.

Main results:

* `Hittop.recognizer_LWS`, `Hittop.recognizer_TEXT`, `Hittop.recognizer_fieldValue`, … — the
  recognizers of the rules.
-/

import Hittop.Characters

set_option relaxedAutoImplicit false
set_option autoImplicit false

namespace Hittop

open Uri.Grammar (lit)
open Http.Grammar

variable {κ : Type} (toInt : κ → ℤ)

/-- A character of a `token`. -/
def tokenChar : Grammar := .unless_ (.either [CTLs, separators]) .anyChar

/-- A character of a `TEXT`, outside of a fold. -/
def textChar : Grammar := .unless_ CTLs .anyChar

/-- A space or a tab. -/
def blankChar : Grammar := .either [lit ' ', lit '\t']

theorem recognizer_CRLF : recognizer toInt CRLF =
    .seq (recognizer toInt (lit '\r')) (recognizer toInt (lit '\n')) := by
  rw [CRLF, recognizer_forwardRef _ _ rfl]
  exact recognizer_pair _ _ _

theorem recognizer_LWS : recognizer toInt LWS =
    .seq (.opt (recognizer toInt CRLF)) (.seq (recognizer toInt blankChar)
      (.star (recognizer toInt blankChar))) := by
  rw [LWS, recognizer_forwardRef _ _ rfl]
  change recognizer toInt (.concat _) = _
  rw [recognizer_pair, recognizer_opt, recognizer_atLeast_one]
  rfl

theorem recognizer_TEXT : recognizer toInt TEXT =
    .alt (recognizer toInt LWS) (recognizer toInt textChar) := recognizer_choice _ _ _

theorem recognizer_tokenRule : recognizer toInt token =
    .seq (recognizer toInt tokenChar) (.star (recognizer toInt tokenChar)) :=
  recognizer_atLeast_one _ _

/-- The alternative of tokens, separators and quoted strings is not reached. -/
theorem recognizer_fieldContent :
    recognizer toInt field_content = .star (recognizer toInt TEXT) := by
  rw [field_content, recognizer_choice, recognizer_repeat]
  exact Recognizer.alt_of_lenient (Recognizer.lenient_star _)

theorem recognizer_fieldValue : recognizer toInt field_value =
    .star (.star (recognizer toInt TEXT)) := by
  rw [field_value, recognizer_forwardRef _ _ rfl]
  change recognizer toInt (.repeat_ _) = _
  rw [recognizer_repeat, recognizer_choice, recognizer_fieldContent,
    Recognizer.alt_of_lenient (Recognizer.lenient_star _)]

theorem recognizer_fieldName : recognizer toInt field_name = recognizer toInt token := by
  rw [field_name, recognizer_forwardRef _ _ rfl]
  rfl

theorem recognizer_messageHeader : recognizer toInt message_header =
    .seq (recognizer toInt token) (.seq (.star (recognizer toInt LWS))
      (.seq (recognizer toInt (lit ':')) (.seq (.star (recognizer toInt LWS))
        (.opt (recognizer toInt field_value))))) := by
  rw [message_header, recognizer_forwardRef _ _ rfl]
  change recognizer toInt (Glue _) = _
  rw [Glue, recognizer_impliedDelim, recognizer_impliedDelim, recognizer_impliedDelim_singleton,
    recognizer_fieldName, recognizer_repeat, recognizer_opt]

theorem recognizer_headerLine : recognizer toInt (Glue [message_header, CRLF]) =
    .seq (recognizer toInt message_header) (.seq (.star (recognizer toInt LWS))
      (recognizer toInt CRLF)) := by
  rw [Glue, recognizer_impliedDelim, recognizer_impliedDelim_singleton, recognizer_repeat]

theorem recognizer_request : recognizer toInt Http.Grammar.Request =
    .seq (recognizer toInt Request_Line)
      (.seq (.star (recognizer toInt (Glue [message_header, CRLF]))) (recognizer toInt CRLF)) := by
  rw [Http.Grammar.Request, recognizer_concat, recognizer_pair, recognizer_repeat]

end Hittop
