import Filth.Base.Counters
import Filth.Server.SideBySide

/-!
# The assembly line

`HTTP_Server_Work::operator()`, `src/HTTP_Server_Work.cpp:32–156`, the loops around the system
calls, `src/Work.cpp:29–79`, and what a worker does with the result, `src/Worker.cpp:25–35`.
What the socket takes and brings while a worker executes a work, and what the callees have
become meanwhile, is chosen anew each time. The buffer that bodies are copied through has no
size here.
-/

namespace Filth

open Base

/-- `Work::mode`. -/
inductive Mode where
  | read | write
  deriving DecidableEq, Repr

/-- The error numbers that reading and writing stop with: none, `EAGAIN` or `EWOULDBLOCK`, and
all others. -/
inductive Stop where
  | clear | blocked | failed
  deriving DecidableEq, Repr

/-- What a work meets while a worker executes it. Interrupted calls leave no trace. -/
structure Chances (ω : Type) where
  /-- How much each `write` takes, and why writing stops if there is something left. -/
  sizes : List Nat
  writeStop : Stop
  /-- What each `read` for headers brings, and why reading stops. -/
  chunks : List Str
  readStop : Stop
  /-- What each `read` for a body brings, and why reading stops if something is missing. -/
  bodyChunks : List Str
  bodyStop : Stop
  /-- The world that a reset finds. -/
  resetWorld : ω
  /-- The world in which a response is prepared. -/
  world : ω

/-- Size of the general-purpose buffer, `cbufsz`. -/
def cbufsz : Nat := 2 ^ 12

/-- The settings that the assembly line depends on, `src/HTTP_Server_Work.cpp:14–19`. -/
structure Settings extends Config where
  maxLineLen : Limit
  maxReqBody : Limit

/-- Settings without a limit. -/
def Settings.lax : Settings := { Config.lax with maxLineLen := none, maxReqBody := none }

/-- What a work does for others to see. -/
inductive Deed where
  /-- The header parser is called. -/
  | parse
  /-- `prepare_response` is called. -/
  | prepare (hdrs : Hdrs) (body : Str)
  /-- A response is set up for writing. -/
  | setup (hdrs body : Str)
  /-- Bytes are put on the socket. -/
  | write (bytes : Str)
  /-- A response has been written, with this input left. -/
  | finish (inbuf : IStream)

/-- `HTTP_Server_Work` and `HTTP_2616_Server_Work`, as far as requests are concerned;
`src/HTTP_Work.hpp:30–58`. The request headers, `deleteme` and `nosch` are part of the scene. `log`
is no member of the source. -/
structure ServerWork (ω Ref : Type) where
  m : Mode
  inbuf : IStream
  inhdrsDone : Bool
  inbody : Str
  inbodySz : Nat
  outhdrsDone : Bool
  /-- What is left of the buffer that is being written. -/
  out : Str
  outbody : Str
  scene : Scene ω Ref
  log : List Deed

/-- How a call of `operator()` ends, `src/ServerErrs.hpp:22–28`: it returns, with the work
rescheduled or not, or it throws a `SocketErr` or an `HTTP_oops`. -/
inductive Ending where
  | rescheduled | silent | socketErr | oops (e : Status)
  deriving DecidableEq, Repr

/-- The call has thrown an `HTTP_oops`. -/
def Ending.escapes : Ending → Bool
  | .oops _ => true
  | _ => false

/-- `Work::rduntil` into a stream, `src/Work.cpp:29–45`. -/
def rduntil (inbuf : IStream) (chunks : List Str) : IStream :=
  chunks.foldl (fun i c ↦ i.insert (cstr c)) inbuf

/-- `Work::rduntil` of a number of bytes into a string, `src/Work.cpp:47–63`. -/
def rduntilBody (s : Str) (tord : Nat) : List Str → Str × Nat
  | [] => (s, tord)
  | c :: cs =>
    if tord = 0 then (s, tord) else rduntilBody (s ++ cstr c) (sizeSub tord c.length) cs

/-- Nothing is read when nothing is waited for. -/
theorem rduntilBody_zero (s : Str) (chunks : List Str) : rduntilBody s 0 chunks = (s, 0) := by
  cases chunks <;> simp [rduntilBody]

/-- `Work::wruntil`, `src/Work.cpp:65–79`: what is written, and what is left. -/
def wruntil (out : Str) : List Nat → Str × Str
  | [] => ([], out)
  | n :: ns =>
    if out = [] then ([], out)
    else (out.take n ++ (wruntil (out.drop n) ns).1, (wruntil (out.drop n) ns).2)

/-- The value of the `Content-Length` line, `src/HTTP_Server_Work.cpp:51–55`. -/
def announcedSize (line : Str) (old : Nat) : Except Status Nat :=
  if line = [] then .ok old
  else match Header.extract line with
    | some (_, rest) => .ok (extractSize rest old)
    | none => .error .badRequest

namespace ServerWork

variable {ω Ref : Type} (W : World ω Ref) (cfg : Settings)

/-- A work for a new connection, `src/HTTP_Work.cpp:3–9`. -/
def new (world : ω) : ServerWork ω Ref :=
  { m := .read, inbuf := .new [], inhdrsDone := false, inbody := [], inbodySz := 0
    outhdrsDone := false, out := [], outbody := [], scene := .new world, log := [] }

/-- `inhdrs`. -/
def inhdrs (w : ServerWork ω Ref) : Hdrs := w.scene.client.reqHdrs

/-- `deleteme`. -/
def deleteme (w : ServerWork ω Ref) : Bool := w.scene.client.deleteme

/-- Add to the log. -/
def report (w : ServerWork ω Ref) (e : Deed) : ServerWork ω Ref := { w with log := w.log ++ [e] }

/-- Set up a header text and a body for writing. -/
def setOut (w : ServerWork ω Ref) (hdrs body : Str) : ServerWork ω Ref :=
  let out := (cstr hdrs).take (cbufsz - 1)
  { w with m := .write, out, outbody := body, log := w.log ++ [.setup out body] }

/-- From a complete request to a response, `src/HTTP_Server_Work.cpp:74–94`. A request that is
handed on leaves no headers, and the body as it was. -/
def dropdown (w : ServerWork ω Ref) (a : Chances ω) : ServerWork ω Ref × Ending :=
  let w := w.report (.prepare w.inhdrs w.inbody)
  match respond W cfg.toConfig w.inbody { w.scene with world := a.world } with
  | (.ok (some r), scene) => ({ w with scene }.setOut r.hdrs r.body, .rescheduled)
  | (.ok none, scene) => ({ w with scene }.setOut [] w.outbody, .rescheduled)
  | (.error e, scene) => ({ w with scene }, .oops e)

/-- Read more of a request body, `src/HTTP_Server_Work.cpp:40–43` and `73–96`. -/
def readBody (w : ServerWork ω Ref) (a : Chances ω) : ServerWork ω Ref × Ending :=
  let (inbody, inbodySz) := rduntilBody w.inbody w.inbodySz a.bodyChunks
  let w := { w with inbody, inbodySz }
  if inbodySz = 0 then w.dropdown W cfg a
  else if a.bodyStop = .failed then (w, .socketErr)
  else (w, .rescheduled)

/-- The headers are complete, `src/HTTP_Server_Work.cpp:48–71`: take as much of the body as has
been read with them. -/
def readInbuf (w : ServerWork ω Ref) (a : Chances ω) : ServerWork ω Ref × Ending :=
  match announcedSize (w.inhdrs.hdr .contentLength) w.inbodySz with
  | .error e => (w, .oops e)
  | .ok 0 => { w with inbodySz := 0 }.dropdown W cfg a
  | .ok (n + 1) =>
    if cfg.maxReqBody.exceeded (n + 1) then (w, .oops .requestEntityTooLarge)
    else
      let (got, inbuf) := w.inbuf.read (n + 1)
      let w := { w with
        inbuf, inbodySz := sizeSub (n + 1) got.length, inbody := w.inbody ++ cstr got }
      if w.inbodySz = 0 then w.dropdown W cfg a else w.readBody W cfg a

/-- What the parser leaves. -/
def parsed (w : ServerWork ω Ref) (done : Bool) (inbuf : IStream) (reqHdrs : Hdrs) :
    ServerWork ω Ref :=
  { w.report .parse with
    inbuf, inhdrsDone := done
    scene := { w.scene with client := { w.scene.client with reqHdrs } } }

/-- Go on with the headers when they are complete, and wait for more when they are not. -/
def afterParse (w : ServerWork ω Ref) (a : Chances ω) :
    Except Status (Bool × IStream × Hdrs) → ServerWork ω Ref × Ending
  | .error e => (w.report .parse, .oops e)
  | .ok (done, inbuf, hdrs) =>
    if done then (w.parsed done inbuf hdrs).readInbuf W cfg a
    else (w.parsed done inbuf hdrs, .rescheduled)

/-- Read more of the request headers, `src/HTTP_Server_Work.cpp:39–50`. -/
def readHdrs (w : ServerWork ω Ref) (a : Chances ω) : ServerWork ω Ref × Ending :=
  let w := { w with inbuf := rduntil w.inbuf a.chunks }
  if a.readStop = .failed then (w, .socketErr)
  else w.afterParse W cfg a (parse cfg.maxLineLen w.inbuf w.inhdrs)

/-- `reset` of both classes, `src/HTTP_Server_Work.cpp:241–255`. -/
def reset (w : ServerWork ω Ref) : ServerWork ω Ref :=
  { m := w.m, inbuf := w.inbuf, inhdrsDone := false, inbody := [], inbodySz := 0
    outhdrsDone := false, out := [], outbody := [], scene := Filth.reset W w.scene, log := w.log }

/-- After a response: forget the request, and go on with the next if some of it has been read,
`src/HTTP_Server_Work.cpp:117–148`. -/
def keepAlive (w : ServerWork ω Ref) (a : Chances ω) : ServerWork ω Ref × Ending :=
  let w := { w with scene := { w.scene with world := a.resetWorld } }.reset W
  let inbuf := w.inbuf.ignore
  if inbuf.good then { w with m := .read, inbuf := inbuf.unget }.readHdrs W cfg a
  else ({ w with m := .read, inbuf := .new [] }, .rescheduled)

/-- Write, `src/HTTP_Server_Work.cpp:97–154`. -/
def writeOut (w : ServerWork ω Ref) (a : Chances ω) : ServerWork ω Ref × Ending :=
  let (sent, out) := wruntil w.out a.sizes
  let w := { w with out, log := w.log ++ [.write sent] }
  if out ≠ [] then (w, if a.writeStop = .blocked then .rescheduled else .socketErr)
  else if !w.outhdrsDone then ({ w with outhdrsDone := true, out := w.outbody }, .rescheduled)
  else if w.scene.nosch then (w, .silent)
  else
    let w := w.report (.finish w.inbuf)
    if !w.deleteme then w.keepAlive W cfg a else (w, .silent)

/-- `operator()`, `src/HTTP_Server_Work.cpp:32–156`. -/
def operator (w : ServerWork ω Ref) (a : Chances ω) : ServerWork ω Ref × Ending :=
  match w.m with
  | .read => if w.inhdrsDone then w.readBody W cfg a else w.readHdrs W cfg a
  | .write => w.writeOut W cfg a

/-- `async_setresponse`, `src/HTTP_Server_Work.cpp:257–281` and
`src/HTTP_2616_Server_Work.cpp:520–530`: the response of a dynamic resource is set up. The body
is copied like a C string, into a buffer that may be denied. -/
def asyncSetresponse (w : ServerWork ω Ref) (resphdrs : Hdrs) (respbody : Str) (granted : Bool) :
    ServerWork ω Ref :=
  let copy := cstr respbody ++ List.replicate (respbody.length - (cstr respbody).length) '\x00'
  { w with outhdrsDone := false, scene := wake w.scene }.setOut resphdrs.print
    (if granted then copy else [])

end ServerWork

/-- What becomes of a connection: its work is there, armed for an event or not; it has been
deleted; or an `HTTP_oops` has got past the worker and ended the process. -/
inductive Conn (ω Ref : Type) where
  | live (w : ServerWork ω Ref) (armed : Bool)
  | deleted (w : ServerWork ω Ref)
  | crashed (w : ServerWork ω Ref) (e : Status)

/-- Steps of a connection: a worker executes its work, or a dynamic resource wakes it up. -/
inductive Act (ω : Type) where
  | turn (a : Chances ω)
  | wake (resphdrs : Hdrs) (respbody : Str) (granted : Bool)

/-- What a worker does after `operator()`, `src/Worker.cpp:25–35`. -/
def Ending.settle {ω Ref : Type} (w : ServerWork ω Ref) : Ending → Conn ω Ref
  | .oops e => .crashed w e
  | .socketErr => .deleted w
  | .rescheduled => if w.deleteme then .deleted w else .live w true
  | .silent => if w.deleteme then .deleted w else .live w false

/-- What the work has done, or had done when it went. -/
def Conn.log {ω Ref : Type} : Conn ω Ref → List Deed
  | .live w _ | .deleted w | .crashed w _ => w.log

theorem Ending.log_settle {ω Ref : Type} (w : ServerWork ω Ref) (e : Ending) :
    (e.settle w).log = w.log := by
  cases e with
  | oops e => rfl
  | socketErr => rfl
  | rescheduled =>
    rw [settle]
    split <;> rfl
  | silent =>
    rw [settle]
    split <;> rfl

/-- A connection, from a work on that is armed. A dynamic resource wakes it up between turns. -/
def assemblyLine {ω Ref : Type} (W : World ω Ref) (cfg : Settings) (w : ServerWork ω Ref) :
    Machine (Conn ω Ref) (Act ω) where
  init := .live w true
  step
    | .live w true, .turn a => some ((w.operator W cfg a).2.settle (w.operator W cfg a).1)
    | .live w _, .wake resphdrs respbody granted =>
      if w.scene.nosch then some (.live (w.asyncSetresponse resphdrs respbody granted) true)
      else none
    | _, _ => none

/-- What the steps of a connection are. -/
theorem assemblyLine_step {ω Ref : Type} (W : World ω Ref) (cfg : Settings)
    {w₀ : ServerWork ω Ref} {s s' : Conn ω Ref} {act : Act ω}
    (h : (assemblyLine W cfg w₀).step s act = some s') :
    (∃ w a, s = .live w true ∧ act = .turn a ∧
      s' = (w.operator W cfg a).2.settle (w.operator W cfg a).1) ∨
    ∃ w armed hdrs body granted, s = .live w armed ∧ act = .wake hdrs body granted ∧
      w.scene.nosch = true ∧ s' = .live (w.asyncSetresponse hdrs body granted) true := by
  unfold assemblyLine at h
  dsimp only at h
  split at h
  · next w a =>
    cases h
    exact .inl ⟨w, a, rfl, rfl, rfl⟩
  · next w armed hdrs body granted =>
    split at h
    · next hnosch =>
      cases h
      exact .inr ⟨w, armed, hdrs, body, granted, rfl, rfl, hnosch, rfl⟩
    · cases h
  · cases h

/-- Where a connection has started from does not matter for what it does. -/
theorem run_assemblyLine {ω Ref : Type} (W : World ω Ref) (cfg : Settings) (w v : ServerWork ω Ref)
    (c : Conn ω Ref) (acts : List (Act ω)) :
    (assemblyLine W cfg w).run c acts = (assemblyLine W cfg v).run c acts := by
  induction acts generalizing c with
  | nil => rfl
  | cons act acts ih => exact congrArg (Option.bind _) (funext ih)

/-- Whatever is thrown while a response is prepared, there is a response. -/
theorem respond_ok {ω Ref : Type} (W : World ω Ref) (cfg : Config) (reqBody : Str)
    (s : Scene ω Ref) : ∃ r s', respond W cfg reqBody s = (.ok r, s') := by
  have hoops (e : Status) (s : Scene ω Ref) :
      ∃ r s', (do return some (← onOops W e) : WorkM ω Ref _) s = (.ok r, s') := by
    obtain ⟨r, s', hr, -⟩ := client_of_calm W (fun hK ↦ calm_onOops W hK.toAbreast e) s
    exact ⟨some r, s', Eff.bind_ok hr⟩
  cases hp : prepareResponse W cfg reqBody s with
  | mk r s' =>
    cases r with
    | ok r => exact ⟨r, s', Eff.tryCatch_ok hp⟩
    | error e =>
      rw [respond, Eff.tryCatch_error hp]
      exact hoops e s'

namespace ServerWork

variable {ω Ref : Type} (W : World ω Ref) (cfg : Settings)

/-- A complete request leads to a response that is set up, with the headers read. -/
theorem dropdown_eq (w : ServerWork ω Ref) (a : Chances ω) : ∃ scene hdrs body,
    w.dropdown W cfg a =
      ({ w.report (.prepare w.inhdrs w.inbody) with scene }.setOut hdrs body, .rescheduled) ∧
    scene.client = (Client.browseReq cfg.toConfig w.scene.client).2 := by
  obtain ⟨r, scene, hr⟩ := respond_ok W cfg.toConfig w.inbody { w.scene with world := a.world }
  have hclient := congrArg Prod.fst
    (serve_client W cfg.toConfig w.scene { hdrs := w.inhdrs, body := w.inbody, world := a.world })
  change (respond W cfg.toConfig w.inbody { w.scene with world := a.world }).2.client = _ at hclient
  rw [hr] at hclient
  cases r with
  | some r => exact ⟨scene, r.hdrs, r.body, by rw [dropdown]; simp only [report, inhdrs, hr], hclient⟩
  | none => exact ⟨scene, [], w.outbody, by rw [dropdown]; simp only [report, inhdrs, hr], hclient⟩

end ServerWork
end Filth
