import Filth.Base.Text

/-!
# The constants of the protocol

The enumerations of `src/HTTP_constants.hpp`, whose members and names come from the tables
`data/HTTP_status.def`, `HTTP_methods.def`, `HTTP_headers.def` and `HTTP_content_codings.def`,
and the reading and printing of their members, `src/HTTP_constants.cpp:12–157`.
-/

namespace Filth

open Base

/-- A configured maximum; the value −1, no limit, is `none`; `src/HTTP_parsing.cpp:14–21`. -/
abbrev Limit := Option Nat

/-- There is a limit and it is exceeded. -/
def Limit.exceeded (max : Limit) (n : Nat) : Bool := max.any (· < n)

/-- Nothing at all exceeds no limit. -/
theorem Limit.exceeded_zero (max : Limit) : max.exceeded 0 = false := by
  cases max <;> simp [exceeded]

/-- Statuses, `data/HTTP_status.def`. -/
inductive Status where
  | «continue» | switchingProtocols | ok | created | accepted | nonAuthoritativeInformation
  | noContent | resetContent | partialContent | multipleChoices | movedPermanently | found
  | seeOther | notModified | useProxy | temporaryRedirect | badRequest | unauthorized
  | paymentRequired | forbidden | notFound | methodNotAllowed | notAcceptable
  | proxyAuthenticationRequired | requestTimeOut | conflict | gone | lengthRequired
  | preconditionFailed | requestEntityTooLarge | requestURITooLong | unsupportedMediaType
  | requestedRangeNotSatisfiable | expectationFailed | internalServerError | notImplemented
  | badGateway | serviceUnavailable | gatewayTimeout | httpVersionNotSupported
  deriving DecidableEq, Repr

/-- Methods, `data/HTTP_methods.def`. -/
inductive Method where
  | connect | delete | get | head | options | post | put | trace
  deriving DecidableEq, Repr

/-- Headers, `data/HTTP_headers.def`. -/
inductive Header where
  | accept | acceptCharset | acceptEncoding | acceptLanguage | acceptRanges | age | allow
  | authorization | cacheControl | connection | contentEncoding | contentLanguage | contentLength
  | contentLocation | contentMD5 | contentRange | contentType | date | eTag | expect | expires
  | «from» | host | ifMatch | ifModifiedSince | ifNoneMatch | ifRange | ifUnmodifiedSince
  | lastModified | location | maxForwards | pragma | proxyAuthenticate | proxyAuthorization
  | range | referer | retryAfter | server | te | trailer | transferEncoding | upgrade | userAgent
  | vary | via | warning | wwwAuthenticate
  deriving DecidableEq, Repr

/-- Content codings, `data/HTTP_content_codings.def`. -/
inductive ContentCoding where
  | compress | deflate | gzip | identity
  deriving DecidableEq, Repr

/-- The only version the server speaks, `src/HTTP_constants.cpp:12`. -/
def httpVersion : Str := "HTTP/1.1".toList

/-- End of a line, `src/HTTP_constants.cpp:13`. -/
def crlf : Str := ['\r', '\n']

/-- Name of the package, as it stands in the `Server` header. -/
def packageName : Str := "filth".toList

/-- `status_vals`, `src/HTTP_constants.cpp:21–25`. -/
def Status.val : Status → Nat
  | .continue => 100
  | .switchingProtocols => 101
  | .ok => 200
  | .created => 201
  | .accepted => 202
  | .nonAuthoritativeInformation => 203
  | .noContent => 204
  | .resetContent => 205
  | .partialContent => 206
  | .multipleChoices => 300
  | .movedPermanently => 301
  | .found => 302
  | .seeOther => 303
  | .notModified => 304
  | .useProxy => 305
  | .temporaryRedirect => 307
  | .badRequest => 400
  | .unauthorized => 401
  | .paymentRequired => 402
  | .forbidden => 403
  | .notFound => 404
  | .methodNotAllowed => 405
  | .notAcceptable => 406
  | .proxyAuthenticationRequired => 407
  | .requestTimeOut => 408
  | .conflict => 409
  | .gone => 410
  | .lengthRequired => 411
  | .preconditionFailed => 412
  | .requestEntityTooLarge => 413
  | .requestURITooLong => 414
  | .unsupportedMediaType => 415
  | .requestedRangeNotSatisfiable => 416
  | .expectationFailed => 417
  | .internalServerError => 500
  | .notImplemented => 501
  | .badGateway => 502
  | .serviceUnavailable => 503
  | .gatewayTimeout => 504
  | .httpVersionNotSupported => 505

/-- `status_strs`, `src/HTTP_constants.cpp:27–31`: the names as the table has them. -/
def Status.str : Status → Str
  | .continue => "Continue".toList
  | .switchingProtocols => "Switching_Protocols".toList
  | .ok => "OK".toList
  | .created => "Created".toList
  | .accepted => "Accepted".toList
  | .nonAuthoritativeInformation => "Non_Authoritative_Information".toList
  | .noContent => "No_Content".toList
  | .resetContent => "Reset_Content".toList
  | .partialContent => "Partial_Content".toList
  | .multipleChoices => "Multiple_Choices".toList
  | .movedPermanently => "Moved_Permanently".toList
  | .found => "Found".toList
  | .seeOther => "See_Other".toList
  | .notModified => "Not_Modified".toList
  | .useProxy => "Use_Proxy".toList
  | .temporaryRedirect => "Temporary_Redirect".toList
  | .badRequest => "Bad_Request".toList
  | .unauthorized => "Unauthorized".toList
  | .paymentRequired => "Payment_Required".toList
  | .forbidden => "Forbidden".toList
  | .notFound => "Not_Found".toList
  | .methodNotAllowed => "Method_Not_Allowed".toList
  | .notAcceptable => "Not_Acceptable".toList
  | .proxyAuthenticationRequired => "Proxy_Authentication_Required".toList
  | .requestTimeOut => "Request_Time_Out".toList
  | .conflict => "Conflict".toList
  | .gone => "Gone".toList
  | .lengthRequired => "Length_Required".toList
  | .preconditionFailed => "Precondition_Failed".toList
  | .requestEntityTooLarge => "Request_Entity_Too_Large".toList
  | .requestURITooLong => "Request_URI_Too_Long".toList
  | .unsupportedMediaType => "Unsupported_Media_Type".toList
  | .requestedRangeNotSatisfiable => "Requested_Range_Not_Satisfiable".toList
  | .expectationFailed => "Expectation_Failed".toList
  | .internalServerError => "Internal_Server_Error".toList
  | .notImplemented => "Not_Implemented".toList
  | .badGateway => "Bad_Gateway".toList
  | .serviceUnavailable => "Service_Unavailable".toList
  | .gatewayTimeout => "Gateway_Timeout".toList
  | .httpVersionNotSupported => "HTTP_Version_Not_Supported".toList

/-- `method_strs`, `src/HTTP_constants.cpp:39–43`. -/
def Method.str : Method → Str
  | .connect => "CONNECT".toList
  | .delete => "DELETE".toList
  | .get => "GET".toList
  | .head => "HEAD".toList
  | .options => "OPTIONS".toList
  | .post => "POST".toList
  | .put => "PUT".toList
  | .trace => "TRACE".toList

/-- `header_strs`, `src/HTTP_constants.cpp:56–60`. -/
def Header.str : Header → Str
  | .accept => "Accept".toList
  | .acceptCharset => "Accept_Charset".toList
  | .acceptEncoding => "Accept_Encoding".toList
  | .acceptLanguage => "Accept_Language".toList
  | .acceptRanges => "Accept_Ranges".toList
  | .age => "Age".toList
  | .allow => "Allow".toList
  | .authorization => "Authorization".toList
  | .cacheControl => "Cache_Control".toList
  | .connection => "Connection".toList
  | .contentEncoding => "Content_Encoding".toList
  | .contentLanguage => "Content_Language".toList
  | .contentLength => "Content_Length".toList
  | .contentLocation => "Content_Location".toList
  | .contentMD5 => "Content_MD5".toList
  | .contentRange => "Content_Range".toList
  | .contentType => "Content_Type".toList
  | .date => "Date".toList
  | .eTag => "ETag".toList
  | .expect => "Expect".toList
  | .expires => "Expires".toList
  | .from => "From".toList
  | .host => "Host".toList
  | .ifMatch => "If_Match".toList
  | .ifModifiedSince => "If_Modified_Since".toList
  | .ifNoneMatch => "If_None_Match".toList
  | .ifRange => "If_Range".toList
  | .ifUnmodifiedSince => "If_Unmodified_Since".toList
  | .lastModified => "Last_Modified".toList
  | .location => "Location".toList
  | .maxForwards => "Max_Forwards".toList
  | .pragma => "Pragma".toList
  | .proxyAuthenticate => "Proxy_Authenticate".toList
  | .proxyAuthorization => "Proxy_Authorization".toList
  | .range => "Range".toList
  | .referer => "Referer".toList
  | .retryAfter => "Retry_After".toList
  | .server => "Server".toList
  | .te => "TE".toList
  | .trailer => "Trailer".toList
  | .transferEncoding => "Transfer_Encoding".toList
  | .upgrade => "Upgrade".toList
  | .userAgent => "User_Agent".toList
  | .vary => "Vary".toList
  | .via => "Via".toList
  | .warning => "Warning".toList
  | .wwwAuthenticate => "WWW_Authenticate".toList

/-- `content_coding_strs`, `src/HTTP_constants.cpp:68–72`. -/
def ContentCoding.str : ContentCoding → Str
  | .compress => "compress".toList
  | .deflate => "deflate".toList
  | .gzip => "gzip".toList
  | .identity => "identity".toList

/-- The methods in the order of their table. -/
def Method.all : List Method :=
  [.connect, .delete, .get, .head, .options, .post, .put, .trace]

/-- The headers in the order of their table. -/
def Header.all : List Header :=
  [.accept, .acceptCharset, .acceptEncoding, .acceptLanguage, .acceptRanges, .age, .allow,
   .authorization, .cacheControl, .connection, .contentEncoding, .contentLanguage,
   .contentLength, .contentLocation, .contentMD5, .contentRange, .contentType, .date, .eTag,
   .expect, .expires, .from, .host, .ifMatch, .ifModifiedSince, .ifNoneMatch, .ifRange,
   .ifUnmodifiedSince, .lastModified, .location, .maxForwards, .pragma, .proxyAuthenticate,
   .proxyAuthorization, .range, .referer, .retryAfter, .server, .te, .trailer, .transferEncoding,
   .upgrade, .userAgent, .vary, .via, .warning, .wwwAuthenticate]

/-- Printing a status replaces underscores by spaces, `src/HTTP_constants.cpp:74–83`: `404 Not
Found`. -/
def Status.print (s : Status) : Str :=
  decimal s.val ++ ' ' :: s.str.map fun c ↦ if c = '_' then ' ' else c

/-- Printing a header name replaces underscores by hyphens and adds the colon,
`src/HTTP_constants.cpp:141–151`. -/
def Header.print (h : Header) : Str :=
  (h.str.map fun c ↦ if c = '_' then '-' else c) ++ [':', ' ']

/-- The method with a given name, `src/HTTP_constants.cpp:85–97`; names are case-sensitive. -/
def Method.find (s : Str) : Option Method := all.find? fun m ↦ m.str = s

/-- The header with a given name, as the table writes it. -/
def Header.find (s : Str) : Option Header := all.find? fun h ↦ h.str = s

/-- Every method is found by its name. -/
theorem Method.find_str (m : Method) : find m.str = some m := by cases m <;> rfl

/-- Every header is found by its name. -/
theorem Header.find_str (h : Header) : find h.str = some h := by cases h <;> decide

/-- What is found has the name that was looked for. -/
theorem Header.str_of_find {s : Str} {h : Header} (hfind : find s = some h) : h.str = s :=
  of_decide_eq_true (List.find?_some (p := fun h : Header ↦ decide (h.str = s)) (l := all) hfind)

/-- Reading a header: the text before the colon, with underscores for hyphens and trimmed, must
be the name of a header (`src/HTTP_constants.cpp:104–139`). What is left follows the colon. -/
def Header.extract (line : Str) : Option (Header × Str) :=
  let name := line.takeWhile (· ≠ ':')
  if name.length < line.length then
    (find (trim (name.map fun c ↦ if c = '-' then '_' else c))).map
      fun h ↦ (h, line.drop (name.length + 1))
  else none

end Filth
