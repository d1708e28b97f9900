/-
**The HTTP/1.1 grammar** of `hittop/http/grammar.h`, as far as the heads of messages need it, with
the comments and quoted strings of header fields.

Main definitions:

* `Hittop.Http.Grammar.Request` — the head of a request: a request line, headers and an empty line;
* `Hittop.Http.Grammar.Response`, `Hittop.Http.Grammar.HTTP_message`,
  `Hittop.Http.Grammar.generic_message` — the heads of responses, and of messages of both kinds;
* `Hittop.Http.Grammar.message_header` — one header;
* `Hittop.Http.Grammar.TEXT`, `Hittop.Http.Grammar.LWS` — field content and folding.
-/

import Hittop.Uri.Grammar

set_option relaxedAutoImplicit false
set_option autoImplicit false

namespace Hittop.Http.Grammar

open Uri.Grammar (lit hier_part absoluteURI abs_path authority fragment)

/-! ### Basic rules -/

def DIGIT : Grammar := .charFilter .isdigit
def SP : Grammar := lit ' '

def CRLF_type : Grammar := .concat [lit '\r', lit '\n']
def CRLF : Grammar := .forwardRef .CRLF_

def LWS_type : Grammar := .concat [.opt CRLF, .atLeast 1 (.either [lit ' ', lit '\t'])]
def LWS : Grammar := .forwardRef .LWS_

def separators : Grammar :=
  .either [lit '(', lit ')', lit '<', lit '>', lit '@', lit ',', lit ';', lit ':', lit '\\',
    lit '"', lit '/', lit '[', lit ']', lit '?', lit '=', lit '{', lit '}', lit ' ', lit '\t']

def CTLs : Grammar := .charFilter .iscntrl

def TEXT : Grammar := .either [LWS, .unless_ CTLs .anyChar]

def quoted_pair : Grammar := .concat [lit '\\', .anyChar]

def ctext : Grammar := .unless_ (.either [lit '(', lit ')']) TEXT

def comment : Grammar := .forwardRef .comment_t
def comment_type : Grammar :=
  .concat [lit '(', .repeat_ (.either [ctext, quoted_pair, comment]), lit ')']

def qdtext : Grammar := .unless_ (lit '"') .anyChar

def quoted_string : Grammar :=
  .concat [lit '"', .repeat_ (.either [qdtext, quoted_pair]), lit '"']

def token : Grammar := .atLeast 1 (.unless_ (.either [CTLs, separators]) .anyChar)

/-! ### Headers -/

/-- "Implied `*LWS`" between the parts of a rule. -/
def Glue (parts : List Grammar) : Grammar := .impliedDelim (.repeat_ LWS) parts

def field_content : Grammar :=
  .either [.repeat_ TEXT, .repeat_ (.either [token, separators, quoted_string])]

def field_value_type : Grammar := .repeat_ (.either [field_content, LWS])
def field_value : Grammar := .forwardRef .field_value_

def field_name_type : Grammar := token
def field_name : Grammar := .forwardRef .field_name_

def message_header_type : Grammar := Glue [field_name, lit ':', .opt field_value]
def message_header : Grammar := .forwardRef .message_header_

/-! ### The request line -/

/-- `DEFINE_NAMED_TOKEN`. -/
def named_token (text : String) : Grammar := .token (text.toList.map ch)

def HTTP_slash : Grammar := named_token "HTTP/"

def HTTP_major_version_type : Grammar := .atLeast 1 DIGIT
def HTTP_major_version : Grammar := .forwardRef .HTTP_major_version_

def HTTP_minor_version_type : Grammar := .atLeast 1 DIGIT
def HTTP_minor_version : Grammar := .forwardRef .HTTP_minor_version_

/-- `HTTP-Version = "HTTP" "/" 1*DIGIT "." 1*DIGIT` -/
def HTTP_Version : Grammar := .concat [HTTP_slash, HTTP_major_version, lit '.', HTTP_minor_version]

def extension_method_type : Grammar := token
def extension_method : Grammar := .forwardRef .extension_method_

def OPTIONS : Grammar := named_token "OPTIONS"
def GET : Grammar := named_token "GET"
def HEAD : Grammar := named_token "HEAD"
def POST : Grammar := named_token "POST"
def PUT : Grammar := named_token "PUT"
def DELETE : Grammar := named_token "DELETE"
def TRACE : Grammar := named_token "TRACE"
def CONNECT : Grammar := named_token "CONNECT"

def HttpMethod : Grammar := .either [GET, POST, PUT, DELETE, OPTIONS, HEAD, TRACE, CONNECT]

def Method : Grammar := .either [HttpMethod, extension_method]

def Star_type : Grammar := lit '*'
def Star : Grammar := .forwardRef .Star_

def Request_URI : Grammar :=
  .either [.concat [hier_part, .opt (.concat [lit '#', fragment])], Star, absoluteURI, abs_path,
    authority]

def Request_Line : Grammar := .concat [Method, SP, Request_URI, SP, HTTP_Version, CRLF]

def Request : Grammar := .concat [Request_Line, .repeat_ (Glue [message_header, CRLF]), CRLF]

/-! ### Responses and messages -/

def Reason_Phrase : Grammar := .repeat_ (.unless_ (.either [lit '\r', lit '\n']) TEXT)

def Status_Code : Grammar := .exactly 3 DIGIT

def Status_Line : Grammar := .concat [HTTP_Version, SP, Status_Code, SP, Reason_Phrase, CRLF]

/-- Unlike those of a request, the headers are not glued to the ends of their lines. -/
def Response : Grammar :=
  .concat [Status_Line, .repeat_ (.concat [message_header, CRLF]), CRLF]

def start_line : Grammar := .either [Request_Line, Status_Line]

def generic_message : Grammar :=
  .concat [start_line, .repeat_ (Glue [message_header, CRLF]), CRLF]

def HTTP_message : Grammar := .either [Request, Response]

end Hittop.Http.Grammar
