/-
**The URI grammar** of `hittop/uri/grammar.h`: the generic syntax of RFC 2396.

Main definitions:

* `Hittop.Uri.Grammar.URI_reference` — the rule `URI-reference` and the rules below it;
* `Hittop.Uri.Grammar.authority`, `Hittop.Uri.Grammar.host` — the authority of a net path.
-/

import Hittop.Names

set_option relaxedAutoImplicit false
set_option autoImplicit false

namespace Hittop.Uri.Grammar

open Rule

/-- `Literal<c>`. -/
abbrev lit (c : Char) : Grammar := .literal [ch c]

/-! ### Character classes -/

def alpha : Grammar := .charFilter .isalpha
def digit : Grammar := .charFilter .isdigit
def alphanum : Grammar := .charFilter .isalnum
def hex : Grammar := .charFilter .isxdigit

def reserved : Grammar :=
  .either [lit ';', lit '/', lit '?', lit ':', lit '@', lit '&', lit '=', lit '+', lit '$', lit ',']

def mark : Grammar :=
  .either [lit '-', lit '_', lit '.', lit '!', lit '~', lit '*', lit '\'', lit '(', lit ')']

def unreserved : Grammar := .either [alphanum, mark]

def escaped : Grammar := .concat [lit '%', hex, hex]

def uric : Grammar := .either [reserved, unreserved, escaped]

def uric_no_slash : Grammar := .unless_ (lit '/') uric

/-! ### Paths -/

/-- `opaque_part = uric_no_slash *uric` -/
def opaque_part : Grammar := .concat [uric_no_slash, .repeat_ uric]

def pchar : Grammar :=
  .either [unreserved, escaped, lit ':', lit '@', lit '&', lit '=', lit '+', lit '$', lit ',']

/-- `param = *pchar` -/
def param_type : Grammar := .repeat_ pchar
def param : Grammar := .forwardRef .param_

/-- `segment = *pchar *( ";" param )` -/
def segment : Grammar := .concat [.repeat_ pchar, .repeat_ (.concat [lit ';', param])]

/-- `path_segments = segment *( "/" segment )` -/
def path_segments : Grammar := .concat [segment, .repeat_ (.concat [lit '/', segment])]

/-- `abs_path = "/" path_segments` -/
def abs_path : Grammar := .concat [lit '/', path_segments]

/-! ### The authority -/

/-- `reg_name = 1*( unreserved | escaped | "$" | "," | ";" | ":" | "@" | "&" | "=" | "+" )` -/
def reg_name : Grammar :=
  .atLeast 1 (.either [unreserved, escaped, lit '$', lit ',', lit ';', lit ':', lit '@', lit '&',
    lit '=', lit '+'])

/-- `userinfo = *( unreserved | escaped | ";" | ":" | "&" | "=" | "+" | "$" | "," )` -/
def userinfo_type : Grammar :=
  .repeat_ (.either [unreserved, escaped, lit ';', lit ':', lit '&', lit '=', lit '+', lit '$',
    lit ','])
def userinfo : Grammar := .forwardRef .userinfo_

/-- `domainlabel = alphanum | alphanum *( alphanum | "-" ) alphanum` -/
def domainlabel : Grammar := .inter (.atLeast 1 alphanum) (lit '-')

/-- `toplabel = alpha | alpha *( alphanum | "-" ) alphanum` -/
def toplabel : Grammar :=
  .either [.concat [alpha, .repeatAndThen (.either [alphanum, lit '-']) alphanum 16], alpha]

/-- `hostname = *( domainlabel "." ) toplabel [ "." ]` -/
def hostname : Grammar :=
  .repeatAndThen (.concat [domainlabel, lit '.']) (.concat [toplabel, .opt (lit '.')]) 16

/-- `IPv4address = 1*digit "." 1*digit "." 1*digit "." 1*digit` -/
def IPv4Address : Grammar :=
  .concat [.atLeast 1 digit, lit '.', .atLeast 1 digit, lit '.', .atLeast 1 digit, lit '.',
    .atLeast 1 digit]

/-- `port = *digit` -/
def port : Grammar := .repeat_ digit

/-- `host = hostname | IPv4address` -/
def host : Grammar := .either [hostname, IPv4Address]

/-- `hostport = host [ ":" port ]` -/
def hostport : Grammar := .concat [host, .opt (.concat [lit ':', port])]

/-- `userinfo_at = userinfo "@"` -/
def userinfo_at : Grammar := .concat [userinfo, lit '@']

/-- `server = [ [ userinfo "@" ] hostport ]` -/
def server : Grammar := .opt (.concat [.opt userinfo_at, hostport])

/-- `authority = server | reg_name` -/
def authority : Grammar := .either [server, reg_name]

/-- `net_path = "//" authority [abs_path]` -/
def net_path : Grammar := .concat [lit '/', lit '/', authority, .opt abs_path]

/-! ### References -/

/-- `query = *uric` -/
def query_type : Grammar := .repeat_ uric
def query : Grammar := .forwardRef .query_

/-- `fragment = *uric` -/
def fragment_type : Grammar := .repeat_ uric
def fragment : Grammar := .forwardRef .fragment_

/-- `hier_part = ( net_path | abs_path ) [ "?" query ]` -/
def hier_part : Grammar :=
  .concat [.either [net_path, abs_path], .opt (.concat [lit '?', query])]

/-- `scheme = alpha *( alpha | digit | "+" | "-" | "." )` -/
def scheme_type : Grammar :=
  .concat [alpha, .repeat_ (.either [alpha, digit, lit '+', lit '-', lit '.'])]
def scheme : Grammar := .forwardRef .scheme_

/-- `absoluteURI = scheme ":" ( hier_part | opaque_part )` -/
def absoluteURI : Grammar := .concat [scheme, lit ':', .either [hier_part, opaque_part]]

/-- `rel_segment = 1*( unreserved | escaped | ";" | "@" | "&" | "=" | "+" | "$" | "," )` -/
def rel_segment : Grammar :=
  .atLeast 1 (.either [unreserved, escaped, lit ';', lit '@', lit '&', lit '=', lit '+', lit '$',
    lit ','])

/-- `rel_path = rel_segment [ abs_path ]` -/
def rel_path : Grammar := .concat [rel_segment, .opt abs_path]

/-- `relativeURI = ( net_path | abs_path | rel_path ) [ "?" query ]` -/
def relativeURI : Grammar :=
  .concat [.either [net_path, abs_path, rel_path], .opt (.concat [lit '?', query])]

/-- `URI-reference = [ absoluteURI | relativeURI ] [ "#" fragment ]` -/
def URI_reference : Grammar :=
  .concat [.opt (.either [absoluteURI, relativeURI]), .opt (.concat [lit '#', fragment])]

end Hittop.Uri.Grammar
