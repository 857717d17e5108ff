import Filth.Base.Effects
import Filth.Http.Parsing
import Filth.Server.RequestLine

/-!
# What a request says

The members of `HTTP_2616_Server_Work` that its request headers are read into, and
`browse_req`, `src/HTTP_2616_Server_Work.cpp:342–468`, which reads them. A header is the whole
line it came in, so a value begins with the name of its header.
-/

namespace Filth

open Base

/-- Cache directives, `cc::opts`; `src/HTTP_2616_Server_Work.hpp:71–78`. -/
inductive CacheOpt where
  | noCache | noStore | noTransform | onlyIfCached | useMaxAge | useMinFresh | useMaxStale
  deriving DecidableEq, Repr

/-- `cc`, `src/HTTP_2616_Server_Work.hpp:69–85`: the directives of the request that have been set,
and their values. -/
structure CacheControl where
  flags : List CacheOpt
  maxAge : Int
  minFresh : Int
  maxStale : Int
  deriving DecidableEq, Repr

namespace CacheControl

/-- No directive, all values zero. -/
def new : CacheControl := { flags := [], maxAge := 0, minFresh := 0, maxStale := 0 }

def set (cc : CacheControl) (o : CacheOpt) : CacheControl := { cc with flags := o :: cc.flags }

def isset (cc : CacheControl) (o : CacheOpt) : Bool := o ∈ cc.flags

/-- Unset all directives; the values stay. -/
def clear (cc : CacheControl) : CacheControl := { cc with flags := [] }

end CacheControl

/-- Stuff reported by the client in the request headers, `src/HTTP_2616_Server_Work.hpp:58–88`,
with the headers themselves and `deleteme`, which one of them sets. -/
structure Client where
  reqHdrs : Hdrs
  path : Str
  query : Str
  meth : Method
  clCacheControl : CacheControl
  clAcceptEnc : ContentCoding
  clContentEnc : ContentCoding
  clMaxFwds : Nat
  deleteme : Bool

/-- What the constructors leave, `src/HTTP_2616_Server_Work.cpp:31–35`; members they do not
initialise have their least value. -/
def Client.new : Client :=
  { reqHdrs := .empty, path := [], query := [], meth := .connect, clCacheControl := .new
    clAcceptEnc := .identity, clContentEnc := .identity, clMaxFwds := 0, deleteme := false }

/-- The settings of the server that requests depend on, `src/HTTP_Server_Work.cpp:14–19`. -/
structure Config where
  maxReqUri : Limit
  defaultResource : Str
  /-- `cache_expires`, in minutes. -/
  cacheExpires : Int

/-- Settings without a limit. -/
def Config.lax : Config :=
  { maxReqUri := none, defaultResource := "index.html".toList, cacheExpires := 60 }

/-- The line of a header. -/
def Client.line (w : Client) (h : Header) : Str := w.reqHdrs.hdr h

/-- Replace the line of a header. -/
def Client.setLine (w : Client) (h : Header) (s : Str) : Client :=
  { w with reqHdrs := { w.reqHdrs with hdr := Function.update w.reqHdrs.hdr h s } }

/-- The coding that a line names, after `tolower`. -/
def namedCoding (line : Str) : Option ContentCoding :=
  if ContentCoding.gzip.str <:+: line then some .gzip
  else if ContentCoding.identity.str <:+: line then some .identity
  else none

/-- Extract two words and a `time_t` from a line, the words into the string the line itself was
in. What cannot be extracted because the line is at its end keeps its old value. -/
def extractAfterTwoWords (line : Str) (old : Int) : Str × Int :=
  let (name, rest) := word line
  if rest.dropWhile isspace = [] then (name, old)
  else
    let (eq, rest) := word rest
    (eq, extractTime rest old)

/-- The `Cache-Control` line, `src/HTTP_2616_Server_Work.cpp:370–418`: what is left in the
string, and the directive. The first name that occurs anywhere in the line decides. -/
def readCacheControl (line : Str) (cc : CacheControl) : Str × CacheControl :=
  if line = [] then (line, cc)
  else if "no-cache".toList <:+: line then (line, cc.set .noCache)
  else if "no-store".toList <:+: line then (line, cc.set .noStore)
  else if "no-transform".toList <:+: line then (line, cc.set .noTransform)
  else if "only-if-cached".toList <:+: line then (line, cc.set .onlyIfCached)
  else if "max-age".toList <:+: line then
    let (tmp, n) := extractAfterTwoWords line cc.maxAge
    (tmp, { cc.set .useMaxAge with maxAge := n })
  else if "max-stale".toList <:+: line then
    if '=' ∈ line then
      let (tmp, n) := extractAfterTwoWords line cc.maxStale
      (tmp, { cc.set .useMaxStale with maxStale := n })
    else (line, { cc.set .useMaxStale with maxStale := -1 })
  else if "min-fresh".toList <:+: line then
    let (tmp, n) := extractAfterTwoWords line cc.minFresh
    (tmp, { cc.set .useMinFresh with minFresh := n })
  else (line, cc)

/-- Programs on what a request says. -/
abbrev ClientM := Eff Client Status

namespace Client

/-- Read the request line and put the default resource in its place. -/
def browseReqln (cfg : Config) : ClientM Unit := fun w ↦
  match parsereqln cfg.maxReqUri w.reqHdrs.reqln w.meth w.path w.query with
  | (.error e, meth, path, query) => (.error e, { w with meth, path, query })
  | (.ok (), meth, path, query) =>
    (.ok (), { w with meth, path := resolve cfg.defaultResource path, query })

/-- A header that names a coding; one that names no acceptable coding is refused. -/
def browseCoding (h : Header) (assign : Client → ContentCoding → Client) (refuse : Status) :
    ClientM Unit := do
  if (← Eff.gets fun w ↦ w.line h) ≠ [] then
    Eff.modify fun w ↦ w.setLine h (lower (w.line h))
    match ← Eff.gets fun w ↦ namedCoding (w.line h) with
    | some enc => Eff.modify fun w ↦ assign w enc
    | none => throw refuse

/-- The codings the client accepts, `src/HTTP_2616_Server_Work.cpp:351–368`. -/
def browseAcceptEncoding : ClientM Unit :=
  browseCoding .acceptEncoding (fun w enc ↦ { w with clAcceptEnc := enc }) .notAcceptable

/-- The coding of the request body, `src/HTTP_2616_Server_Work.cpp:428–440`. -/
def browseContentEncoding : ClientM Unit :=
  browseCoding .contentEncoding (fun w enc ↦ { w with clContentEnc := enc }) .unsupportedMediaType

/-- The cache directives, `src/HTTP_2616_Server_Work.cpp:370–418`. -/
def browseCacheControl : ClientM Unit :=
  Eff.modify fun w ↦
    let (tmp, cc) := readCacheControl (w.line .cacheControl) w.clCacheControl
    { w.setLine .cacheControl tmp with clCacheControl := cc }

/-- The line asks for the connection to be closed. -/
def asksClose (line : Str) : Bool := "close".toList <:+: line

/-- `Connection: close`, `src/HTTP_2616_Server_Work.cpp:420–426`. -/
def browseConnection : ClientM Unit := do
  if ← Eff.gets fun w ↦ asksClose (w.line .connection) then
    Eff.modify fun w ↦ { w with deleteme := true }

/-- Expectations are never met, `src/HTTP_2616_Server_Work.cpp:446–463`. -/
def browseExpect : ClientM Unit := do
  let line ← Eff.gets fun w ↦ w.line .expect
  if line ≠ [] then
    if lower (cstr line) = "100-continue".toList then throw .continue
    else throw .expectationFailed

/-- `Max-Forwards`, `src/HTTP_2616_Server_Work.cpp:464–467`. -/
def browseMaxForwards : ClientM Unit := do
  let line ← Eff.gets fun w ↦ w.line .maxForwards
  if line ≠ [] then Eff.modify fun w ↦ { w with clMaxFwds := extractSize line w.clMaxFwds }

/-- `browse_req`, `src/HTTP_2616_Server_Work.cpp:343–468`. -/
def browseReq (cfg : Config) : ClientM Unit := do
  browseReqln cfg
  browseAcceptEncoding
  browseCacheControl
  browseConnection
  browseContentEncoding
  browseExpect
  browseMaxForwards

end Client
end Filth
