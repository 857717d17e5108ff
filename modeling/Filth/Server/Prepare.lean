import Filth.Base.Counters
import Filth.Base.Machine
import Filth.Server.World

/-!
# From a request to a response

`HTTP_2616_Server_Work`: `prepare_response`, `cache_get`, `cache_put`, `on_oops` and `reset`,
`src/HTTP_2616_Server_Work.cpp:45–339` and `470–512`, with the handler in
`HTTP_Server_Work::operator()` that turns an `HTTP_oops` into a response,
`src/HTTP_Server_Work.cpp:75–85`, and the reset of the base class.
-/

namespace Filth

open Base WorkM

variable {ω Ref : Type} (W : World ω Ref) (cfg : Config)

/-- The header text and the body that are set up for writing. -/
structure Response where
  hdrs : Str
  body : Str
  deriving DecidableEq, Repr

/-- Print a number that may be negative. -/
def decimalInt (n : Int) : Str := if n < 0 then '-' :: decimal n.natAbs else decimal n.natAbs

/-- A directive of the request is set. -/
def isset (o : CacheOpt) : WorkM ω Ref Bool := asks fun w ↦ w.clCacheControl.isset o

theorem isset_bind {α : Type} (o : CacheOpt) (f : Bool → WorkM ω Ref α) (s : Scene ω Ref) :
    (isset o >>= f) s = f (s.client.clCacheControl.isset o) s := rfl

/-- `current_age`, which reads the clock twice; `src/HTTP_CacheEntry.hpp:118`. -/
def currentAge (r : Ref) : WorkM ω Ref Int := do
  let now ← call W.time
  let now' ← call W.time
  load W r fun e ↦ e.currentAge now now'

/-- `response_is_fresh`, `src/HTTP_CacheEntry.cpp:28–31`. -/
def responseIsFresh (r : Ref) : WorkM ω Ref Bool := do
  let age ← currentAge W r
  load W r fun e ↦ age < e.freshnessLifetime

/-- `HTTP_Origin_Server::validate`, `src/HTTP_Origin_Server.cpp:21–27`: the file has not changed
since the entry was made. -/
def validate (path : Str) (r : Ref) : WorkM ω Ref Bool := do
  match ← call (W.mtime path) with
  | some t => load W r fun e ↦ t ≤ e.lastModified
  | none => return false

/-- The comparison that `max-stale` asks for, `src/HTTP_2616_Server_Work.cpp:306–307`. -/
def withinMaxStale (r : Ref) : WorkM ω Ref Bool := do
  let age ← currentAge W r
  let lifetime ← load W r CacheEntry.freshnessLifetime
  asks fun w ↦ signed 64 (age - lifetime) ≤ w.clCacheControl.maxStale

/-- The entry is fresh, or else the origin server finds it valid;
`src/HTTP_2616_Server_Work.cpp:253`. -/
def freshOrValid (path : Str) (r : Ref) (fresh : Bool) : WorkM ω Ref Bool :=
  if fresh then return true else validate W path r

/-- Whether an entry will do for the client, `src/HTTP_2616_Server_Work.cpp:251–311`. The
comparison for `max-age` reads the variable it is about to set. A `time_t` has 64 bits, and a sum
with what the client has sent wraps around. -/
def acceptable (path : Str) (r : Ref) (fresh : Bool) : WorkM ω Ref Bool := do
  if (← freshOrValid W path r fresh) && !(← isset .useMinFresh) && !(← isset .useMaxAge) then
    return true
  else if ← isset .useMinFresh then
    let lifetime ← load W r CacheEntry.freshnessLifetime
    let age ← currentAge W r
    asks fun w ↦ signed 64 (age + w.clCacheControl.minFresh) ≤ lifetime
  else if ← isset .useMaxAge then
    let own ← load W r fun e ↦ e.useMaxAge && decide (e.maxAgeValue < W.indeterminate)
    let ownValue ← load W r CacheEntry.maxAgeValue
    let lesser ← asks fun w ↦ if own then ownValue else w.clCacheControl.maxAge
    let age ← currentAge W r
    if age ≤ lesser then
      if ← isset .useMaxStale then withinMaxStale W r else return true
    else return false
  else if ← isset .useMaxStale then withinMaxStale W r
  else return true

/-- `cache_ok`, `src/HTTP_2616_Server_Work.cpp:313–326`: the age goes into the entry, and a stale
entry is marked. -/
def acceptEntry (path : Str) (r : Ref) (fresh : Bool) : WorkM ω Ref Unit := do
  let age ← currentAge W r
  push W r fun e ↦ e.pushHeader .age (decimalInt age)
  if fresh then return ()
  else
    adviseEvict W path
    push W r fun e ↦
      e.pushHeader .warning ("110 ".toList ++ packageName ++ " \"Response is stale\"".toList)

/-- Take the entry that was found, or give it back; `src/HTTP_2616_Server_Work.cpp:244–331`. -/
def considerEntry (path : Str) (r : Ref) : WorkM ω Ref (Option Ref) := do
  setC (some r)
  let fresh ← responseIsFresh W r
  if ← acceptable W path r fresh then
    acceptEntry W path r fresh
    return some r
  else
    unget W path
    return none

/-- `cache_get`, `src/HTTP_2616_Server_Work.cpp:236–331`: the entry, if the source returns true. -/
def cacheGet (path : Str) : WorkM ω Ref (Option Ref) := do
  if ← isset .noCache then return none
  else match ← get W path with
    | none => return none
    | some r => considerEntry W path r

/-- The entry has an expiration time, which has not passed; `src/HTTP_2616_Server_Work.cpp:503`. -/
def unexpired (r : Ref) : WorkM ω Ref Bool := do
  if ← load W r CacheEntry.useExpires then
    let now ← call W.time
    load W r fun e ↦ now ≤ e.expiresValue
  else return false

/-- Responses to the method may be stored, `src/HTTP_2616_Server_Work.cpp:491–504`. -/
def methodStores (r : Ref) : WorkM ω Ref Bool := do
  let meth ← asks Client.meth
  if meth = .delete ∨ meth = .options ∨ meth = .put ∨ meth = .trace then return false
  else if meth = .post then unexpired W r
  else return true

/-- `cache_put`, `src/HTTP_2616_Server_Work.cpp:489–513`. -/
def cachePut (path : Str) (r : Ref) : WorkM ω Ref Bool := do
  if !(← methodStores W r) then return false
  else if ← isset .noStore then return false
  else
    let sz ← load W r CacheEntry.szincache
    put W path r sz

/-- The headers of a response that is not from the cache, `src/HTTP_2616_Server_Work.cpp:130–140`.
Only files have a time of their own. -/
def dress (path : Str) (r : Ref) (isFile : Bool) : WorkM ω Ref Unit := do
  let stat ← Eff.gets Scene.stat
  push W r fun e ↦ e.pushStatus stat
  push W r fun e ↦ e.pushHeader .contentType (if isFile then W.mime path else "text/html".toList)
  let now ← call W.time
  push W r fun e ↦ e.pushHeader .date (W.date now)
  push W r fun e ↦
    if isFile then e.pushHeader .lastModified (W.date e.lastModified) else e
  let now ← call W.time
  push W r fun e ↦ { e with useExpires := true, expiresValue := now + 60 * cfg.cacheExpires }
  push W r fun e ↦ e.pushHeader .expires (W.date e.expiresValue)

/-- `handle_request_domain_socket`, `src/HTTP_2616_Server_Work.cpp:169–199`: hand the request on and
go to sleep. -/
def domainSocket (path reqBody : Str) : WorkM ω Ref (Option Response) := do
  match ← call W.socket with
  | none => throw .internalServerError
  | some fd =>
    if !(← call (W.getFlags fd)) then throw .internalServerError
    else if !(← call (W.setFlags fd)) then throw .internalServerError
    else if !(← call (W.connect fd ((cstr path).take 107))) then throw .internalServerError
    else
      let hdrs ← asks Client.reqHdrs
      if ← call (W.startClient fd hdrs reqBody) then
        Eff.modify fun s ↦ { s with nosch := true }
        return none
      else throw .internalServerError

/-- Print an entry as headers. -/
def printEntry (r : Ref) : WorkM ω Ref Str := do
  let block ← load W r fun e ↦ e.print.1
  push W r fun e ↦ e.print.2
  return block.text

/-- Answer from an entry, `src/HTTP_2616_Server_Work.cpp:204–231`. -/
def answer (r : Ref) : WorkM ω Ref (Option Response) := do
  let meth ← asks Client.meth
  if meth = .head then
    push W r fun e ↦ e.pushManip .asHead
    return some { hdrs := ← printEntry W r, body := [] }
  else
    let enc ← asks Client.clAcceptEnc
    if enc = .gzip then
      let body ← load W r fun e ↦ e.buf.take e.szincache
      return some { hdrs := ← printEntry W r, body }
    else if enc = .identity then
      let sz ← load W r CacheEntry.szondisk
      if !(← call (W.malloc sz)) then
        Eff.modify fun s ↦ { s with uncompressed := none }
        throw .internalServerError
      else
        match ← load W r fun e ↦ W.uncompress (e.buf.take e.szincache) sz with
        | none =>
          Eff.modify fun s ↦ { s with uncompressed := none }
          throw .internalServerError
        | some body =>
          Eff.modify fun s ↦ { s with uncompressed := some body }
          push W r fun e ↦ e.pushManip .asIdentity
          return some { hdrs := ← printEntry W r, body }
    else
      return some { hdrs := ← printEntry W r, body := [] }

/-- `PUT` and `POST`, `src/HTTP_2616_Server_Work.cpp:81–96`. -/
def putOrPost (path reqBody : Str) (append : Bool) : WorkM ω Ref (Option Response) := do
  let enc ← asks Client.clContentEnc
  match ← call (W.putorpost path reqBody enc append) with
  | none =>
    adviseEvict W path
    throw .ok
  | some .espipe => domainSocket W path reqBody
  | some .enoent => throw .notFound
  | some .eacces => throw .forbidden
  | some .eisdir => throw .forbidden
  | some _ => throw .internalServerError

/-- `DELETE`, `src/HTTP_2616_Server_Work.cpp:97–109`. -/
def deleteFile (path : Str) : WorkM ω Ref (Option Response) := do
  match ← call (W.unlink path) with
  | none =>
    adviseEvict W path
    throw .ok
  | some .eacces => throw .forbidden
  | some .eisdir => throw .forbidden
  | some .enoent => throw .notFound
  | some .eperm => throw .forbidden
  | some _ => throw .internalServerError

/-- Ask the origin server, `src/HTTP_2616_Server_Work.cpp:128–203`. -/
def askOrigin (path reqBody : Str) : WorkM ω Ref (Option Response) := do
  match ← call (W.request path) with
  | .ok r =>
    setC (some r)
    dress W cfg path r true
    setCached (← cachePut W path r)
    answer W r
  | .error err =>
    setC none
    if err = .enoent then throw .notFound
    else if err = .eacces then throw .forbidden
    else if err = .eisdir then
      match ← call (W.dirtoHTML path) with
      | .ok r =>
        setC (some r)
        dress W cfg path r false
        setCached false
        answer W r
      | .error _ => throw .internalServerError
    else if err = .espipe then domainSocket W path reqBody
    else throw .internalServerError

/-- The methods that read, `src/HTTP_2616_Server_Work.cpp:113–203`: first the cache, then the origin
server. -/
def getStyle (path reqBody : Str) : WorkM ω Ref (Option Response) := do
  let hit ← cacheGet W path
  setCached hit.isSome
  match hit with
  | some r => answer W r
  | none =>
    if ← isset .onlyIfCached then throw .gatewayTimeout
    else askOrigin W cfg path reqBody

/-- What the method asks for, `src/HTTP_2616_Server_Work.cpp:56–203`. -/
def dispatch (meth : Method) (path reqBody : Str) : WorkM ω Ref (Option Response) :=
  match meth with
  | .connect => throw .methodNotAllowed
  | .post => putOrPost W path reqBody true
  | .put => putOrPost W path reqBody false
  | .delete => deleteFile W path
  | .get | .head | .options | .trace => getStyle W cfg path reqBody

/-- `prepare_response`, `src/HTTP_2616_Server_Work.cpp:45–232`: a response, or none when the work
goes to sleep. -/
def prepareResponse (reqBody : Str) : WorkM ω Ref (Option Response) := do
  WorkM.client (Client.browseReq cfg)
  let path ← asks Client.path
  let meth ← asks Client.meth
  dispatch W cfg meth path reqBody

/-- What follows `browse_req`. -/
theorem prepareResponse_eq (reqBody : Str) (s : Scene ω Ref) : prepareResponse W cfg reqBody s =
    match Client.browseReq cfg s.client with
    | (.error e, w) => (.error e, { s with client := w })
    | (.ok (), w) => dispatch W cfg w.meth w.path reqBody { s with client := w } := by
  unfold prepareResponse
  cases hb : Client.browseReq cfg s.client with
  | mk r w =>
    cases r with
    | error e =>
      have hclient : (WorkM.client (Client.browseReq cfg) : WorkM ω Ref Unit) s =
          (.error e, { s with client := w }) := by
        rw [WorkM.client, Eff.zoom_apply, hb]
      rw [Eff.bind_error hclient]
    | ok u =>
      have hclient : (WorkM.client (Client.browseReq cfg) : WorkM ω Ref Unit) s =
          (.ok (), { s with client := w }) := by
        rw [WorkM.client, Eff.zoom_apply, hb]
      rw [Eff.bind_ok hclient]
      rfl

/-- The response to an `HTTP_oops`, `src/HTTP_2616_Server_Work.cpp:333–340`. -/
def onOops (e : Status) : WorkM ω Ref Response := do
  let now ← call W.time
  return { hdrs := httpVersion ++ ' ' :: e.print ++ crlf ++ HeaderBlock.line .date (W.date now) ++
             HeaderBlock.line .server packageName ++
             HeaderBlock.line .contentLength (decimal e.str.length) ++ crlf
           body := e.str }

/-- Prepare the response, or the response to what was thrown; `src/HTTP_Server_Work.cpp:75–85`. -/
def respond (reqBody : Str) : WorkM ω Ref (Option Response) :=
  tryCatch (prepareResponse W cfg reqBody) fun e ↦ do return some (← onOops W e)

/-- `async_setresponse`, as far as the next request is concerned: the work wakes up. -/
def wake (s : Scene ω Ref) : Scene ω Ref := { s with nosch := false }

/-- Both `reset` functions, `src/HTTP_2616_Server_Work.cpp:470–487`. -/
def reset (s : Scene ω Ref) : Scene ω Ref :=
  { client := { s.client with
      reqHdrs := .empty, path := [], query := []
      clCacheControl := s.client.clCacheControl.clear }
    stat := s.stat
    respIsCached := s.respIsCached
    c := none
    uncompressed := none
    nosch := s.nosch
    world :=
      if s.respIsCached then W.unget s.client.path s.world
      else match s.c with
        | some r => W.delete r s.world
        | none => s.world
    refs := if s.respIsCached then s.refs.erase s.client.path else s.refs }

/-- A complete request, and the world it finds when its turn comes. -/
structure Request (ω : Type) where
  hdrs : Hdrs
  body : Str
  world : ω

/-- Handle a request, up to the reset. -/
def serve (s : Scene ω Ref) (q : Request ω) : Except Status (Option Response) × Scene ω Ref :=
  respond W cfg q.body { s with client := { s.client with reqHdrs := q.hdrs }, world := q.world }

/-- A kept-alive connection: request after request, each followed by the resets. -/
def connection (world : ω) : Machine (Scene ω Ref) (Request ω) where
  init := .new world
  step s q :=
    if s.client.deleteme then none else some (reset W (wake (serve W cfg s q).2))

/-- The request gets as far as `cache_get`. -/
def looksUp (w : Client) : Bool :=
  match Client.browseReq cfg w with
  | (.ok (), w') => w'.meth ∈ [.get, .head, .options, .trace]
  | (.error _, _) => false

end Filth
