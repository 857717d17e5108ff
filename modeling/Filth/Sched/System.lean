import Filth.Sched.Crew
import Filth.Server.Quantum
import Mathlib.Data.List.AList

/-!
# Works, descriptors and the work map

`FindWork_prealloc`, `src/FindWork_prealloc.hpp:44–108`, the destructors of works, `schedule` and
`reschedule`, `src/Scheduler.cpp:98–134`, the events of `Scheduler::poll` and the accept callback,
and what a worker does with a work: `Worker::work`, and the points of `operator()` of both classes
at which something outside of the work itself changes. What the sockets bring and take is part of
the actions. Memory of a deleted work keeps its contents and is not used again. The listening
socket and the signal descriptor, which have callbacks, are not among the descriptors here.
-/

namespace Filth.Sched

open Base

/-- Addresses of works. -/
abbrev Addr := Nat

/-- Descriptors of connections. -/
abbrev Fd := Nat

/-- A descriptor in the kernel: not open, open and unknown to epoll, watched for nothing since it
was reported, or watched for one event. -/
inductive Desc where
  | closed | unwatched | disarmed
  | armed (m : Mode)
  deriving DecidableEq, Repr

/-- `HTTP_2616_Server_Work` with its `nosch`, and `HTTP_Client_Work_Unix` with its `realclient`. -/
inductive Kind where
  | server (nosch : Bool)
  | client (realclient : Addr)
  deriving DecidableEq, Repr

/-- `Work`; `src/Work.hpp:16–43`. `deleted` is no member of the source. -/
structure Work where
  fd : Fd
  m : Mode
  deleteme : Bool
  kind : Kind
  deleted : Bool
  deriving DecidableEq, Repr

namespace Work

/-- The constructors, `src/Work.cpp:9–12`. -/
def new (fd : Fd) (m : Mode) (kind : Kind) : Work :=
  { fd, m, deleteme := false, kind, deleted := false }

def isServer (w : Work) : Bool :=
  match w.kind with
  | .server _ => true
  | .client _ => false

/-- The work is asleep, or about to go to sleep, until its resource arrives. -/
def nosch (w : Work) : Bool :=
  match w.kind with
  | .server nosch => nosch
  | .client _ => false

/-- Assign `nosch`, which only server works have. -/
def setNosch (w : Work) (nosch : Bool) : Work :=
  match w.kind with
  | .server _ => { w with kind := .server nosch }
  | .client _ => w

end Work

/-- What `epoll_wait` reports, `src/Scheduler.cpp:195–220`: that a socket with a callback is
readable, that a connection is ready for what it waits for, or that it has an error or has been hung
up, whatever else it is. -/
inductive Event where
  | callback
  | ready (fd : Fd)
  | hangup (fd : Fd)
  deriving DecidableEq, Repr

/-- The connection that an event is about. -/
def Event.conn : Event → Option Fd
  | callback => none
  | ready fd | hangup fd => some fd

/-- Where a worker is with the work it has taken, `src/Worker.cpp:25–35`: before `operator()`,
inside it, there but past `browse_resp`, there but past `reschedule`, about to look at `deleteme`,
or about to delete. -/
inductive Stage where
  | outside | inside | delivered | rescheduled | returned | doomed
  deriving DecidableEq, Repr

/-- Scheduler and workers, works, work map and descriptors. -/
structure Sys (T : Type) where
  crew : Crew T Addr Event
  stage : T → Stage
  works : List Work
  wmap : AList fun _ : Fd ↦ Addr
  fds : Fd → Desc

/-- What may happen next. -/
inductive SysAct (T : Type) where
  /-- `epoll_wait` returns. -/
  | report (events : List Event)
  /-- A callback runs; it may accept a connection. -/
  | callback (accepted : Option Fd)
  /-- The scheduler handles an event of a connection. -/
  | handle
  | check | next | leave | halt | pill
  | take (t : T)
  | putBack (t : T)
  /-- A worker calls `operator()`. -/
  | call (t : T)
  /-- `prepare_response` hands the request on to a domain socket. -/
  | relay (t : T) (fd : Fd)
  /-- It has a socket, and cannot connect it or has no memory for the client work. -/
  | leak (t : T) (fd : Fd)
  /-- The work is rescheduled, having set `m`, and `deleteme` if it has seen a reason to. -/
  | reschedule (t : T) (m : Mode) (deleteme : Bool)
  /-- `operator()` is left without rescheduling. -/
  | sleep (t : T)
  /-- A `SocketErr` is thrown, and caught by the worker. -/
  | fail (t : T)
  /-- `browse_resp` wakes up the work that waits for the response. -/
  | deliver (t : T)
  /-- The work reschedules itself after that. -/
  | resume (t : T)
  | ret (t : T)
  | test (t : T)
  | delete (t : T)
  /-- The work map is destroyed when all threads have ended. -/
  | clear
  deriving DecidableEq, Repr

/-- The job a worker is busy with. -/
def Crew.job {T Job E : Type} (c : Crew T Job E) (t : T) : Option Job :=
  match c.hands t with
  | .took _ job => job
  | _ => none

namespace Sys

variable {T : Type}

/-- Nothing is connected. -/
def new : Sys T :=
  { crew := .new, stage := fun _ ↦ .outside, works := [], wmap := ∅, fds := fun _ ↦ .closed }

/-- Change a work. -/
def modify (s : Sys T) (a : Addr) (f : Work → Work) : Sys T :=
  { s with works := s.works.modify a f }

/-- `FindWork_prealloc::operator()`, `src/FindWork_prealloc.hpp:93–108`. A new server work reads
first, whatever mode it is for. -/
def findWork (s : Sys T) (fd : Fd) : Addr × Sys T :=
  match s.wmap.lookup fd with
  | some a => (a, s)
  | none => (s.works.length, { s with
      works := s.works ++ [Work.new fd .read (.server false)]
      wmap := s.wmap.insert fd s.works.length })

/-- `register_alien`, `src/FindWork_prealloc.hpp:57–67`. -/
def registerAlien (s : Sys T) (fd : Fd) (a : Addr) : Sys T :=
  if (s.wmap.lookup fd).isNone then { s with wmap := s.wmap.insert fd a } else s

/-- `unregister`, `src/FindWork_prealloc.hpp:44–55`. -/
def unregister (s : Sys T) (fd : Fd) : Sys T := { s with wmap := s.wmap.erase fd }

/-- `delete`, `src/HTTP_2616_Server_Work.cpp:37–40`: `~HTTP_2616_Server_Work` unregisters the
descriptor, `~HTTP_Client_Work` does not, and `~Work` closes it. -/
def delete (s : Sys T) (a : Addr) : Sys T :=
  match s.works[a]? with
  | none => s
  | some w =>
    { s with
      works := s.works.modify a fun w ↦ { w with deleted := true }
      wmap := if w.isServer then s.wmap.erase w.fd else s.wmap
      fds := Function.update s.fds w.fd .closed }

/-- `clear`, `src/FindWork_prealloc.hpp:77–91`. -/
def clear (s : Sys T) : Sys T :=
  { (s.wmap.entries.map Sigma.snd).foldl delete s with wmap := ∅ }

/-- `Scheduler::schedule`, which throws unless the descriptor is open and new to epoll;
`src/Scheduler.cpp:98–115`. -/
def schedule (s : Sys T) (a : Addr) : Option (Sys T) :=
  match s.works[a]? with
  | none => none
  | some w =>
    if s.fds w.fd = .unwatched then
      some { s with fds := Function.update s.fds w.fd (.armed w.m) }
    else none

/-- `Scheduler::reschedule`, which throws unless epoll knows the descriptor;
`src/Scheduler.cpp:117–134`. -/
def reschedule (s : Sys T) (a : Addr) : Option (Sys T) :=
  match s.works[a]? with
  | none => none
  | some w =>
    if s.fds w.fd = .closed ∨ s.fds w.fd = .unwatched then none
    else some { s with fds := Function.update s.fds w.fd (.armed w.m) }

/-- What epoll may report: connections that are armed, each of them once. -/
def Reports (s : Sys T) (events : List Event) : Prop :=
  (events.filterMap Event.conn).Nodup ∧
    ∀ fd ∈ events.filterMap Event.conn, s.fds fd = .armed .read ∨ s.fds fd = .armed .write

instance (s : Sys T) (events : List Event) : Decidable (s.Reports events) :=
  inferInstanceAs (Decidable (_ ∧ _))

/-- What is reported is no longer watched. -/
def disarm (s : Sys T) (events : List Event) : Sys T :=
  { s with fds := fun fd ↦ if fd ∈ events.filterMap Event.conn then .disarmed else s.fds fd }

/-- What a worker has at a point of its turn. -/
def at? (s : Sys T) (t : T) (p : Stage) : Option Addr :=
  if s.stage t = p then s.crew.job t else none

variable [DecidableEq T]

/-- A worker goes on. -/
def goto (s : Sys T) (t : T) (p : Stage) : Sys T :=
  { s with stage := Function.update s.stage t p }

/-- A step of the crew. -/
def crewStep (s : Sys T) (a : CrewAct T Addr Event) : Option (Sys T) :=
  (s.crew.step a).map fun crew ↦ { s with crew }

/-- A callback, `src/Scheduler.cpp:232–255`: the accept callback finds or makes the work for a new
connection. -/
def callback (s : Sys T) (accepted : Option Fd) : Option (Sys T) :=
  match s.crew.batch.head?, accepted with
  | some .callback, none => s.crewStep (.handle none)
  | some .callback, some fd =>
    if s.fds fd = .closed then do
      let s ← s.crewStep (.handle none)
      let (a, s) := { s with fds := Function.update s.fds fd .unwatched }.findWork fd
      s.schedule a
    else none
  | _, _ => none

/-- An event of a connection, `src/Scheduler.cpp:206–220`. Errors and hangups come first. -/
def handle (s : Sys T) : Option (Sys T) :=
  match s.crew.batch.head? with
  | some (.hangup fd) => do
    let s ← s.crewStep (.handle none)
    let (a, s) := s.findWork fd
    return s.delete a
  | some (.ready fd) => do
    let (a, s) := s.findWork fd
    s.crewStep (.handle (some a))
  | _ => none

/-- `src/HTTP_2616_Server_Work.cpp:171–195`: the client work for a new domain socket. -/
def relay (s : Sys T) (t : T) (fd : Fd) : Option (Sys T) := do
  let a ← s.at? t .inside
  let w ← s.works[a]?
  if w.isServer ∧ s.fds fd = .closed then
    let b := s.works.length
    let s := { s with
      works := s.works ++ [Work.new fd .write (.client a)]
      fds := Function.update s.fds fd .unwatched }
    ((s.registerAlien fd b).modify a (Work.setNosch · true)).schedule b
  else none

/-- `src/HTTP_2616_Server_Work.cpp:174–187, 192–194`: an `HTTP_oops` is thrown, whose handler knows
nothing of the socket, and the work goes on with the response to that. -/
def leak (s : Sys T) (t : T) (fd : Fd) : Option (Sys T) := do
  let a ← s.at? t .inside
  let w ← s.works[a]?
  if w.isServer ∧ s.fds fd = .closed then
    some { s with fds := Function.update s.fds fd .unwatched }
  else none

/-- `async_setresponse`, `src/HTTP_2616_Server_Work.cpp:520–530`. -/
def deliver (s : Sys T) (t : T) : Option (Sys T) := do
  let a ← s.at? t .inside
  let w ← s.works[a]?
  match w.kind with
  | .server _ => none
  | .client b => do
    let s := (s.unregister w.fd).delete a
    let s ← (s.modify b fun w ↦ { w.setNosch false with m := .write }).reschedule b
    return s.goto t .delivered

/-- One step. -/
def step [Fintype T] (s : Sys T) : SysAct T → Option (Sys T)
  | .report events =>
    if s.Reports events then (s.disarm events).crewStep (.report events) else none
  | .callback accepted => s.callback accepted
  | .handle => s.handle
  | .check => s.crewStep .check
  | .next => s.crewStep .next
  | .leave => s.crewStep .leave
  | .halt => s.crewStep .halt
  | .pill => s.crewStep .pill
  | .take t => s.crewStep (.take t)
  | .putBack t => s.crewStep (.putBack t)
  | .call t => do
    let _ ← s.at? t .outside
    return s.goto t .inside
  | .relay t fd => s.relay t fd
  | .leak t fd => s.leak t fd
  | .reschedule t m deleteme => do
    let a ← s.at? t .inside
    let w ← s.works[a]?
    if deleteme ∧ !w.isServer then none
    else
      let s ← (s.modify a fun w ↦ { w with m, deleteme := w.deleteme || deleteme }).reschedule a
      return s.goto t .rescheduled
  | .sleep t => do
    let a ← s.at? t .inside
    let w ← s.works[a]?
    if w.isServer ∧ (w.nosch ∨ w.deleteme) then return s.goto t .returned else none
  | .fail t => do
    let a ← s.at? t .inside
    return (s.modify a fun w ↦ { w with deleteme := true }).goto t .returned
  | .deliver t => s.deliver t
  | .resume t => do
    let a ← s.at? t .delivered
    let s ← s.reschedule a
    return s.goto t .rescheduled
  | .ret t => do
    let _ ← s.at? t .rescheduled
    return s.goto t .returned
  | .test t => do
    let a ← s.at? t .returned
    let w ← s.works[a]?
    if w.deleteme then return s.goto t .doomed
    else (s.goto t .outside).crewStep (.execute t)
  | .delete t => do
    let a ← s.at? t .doomed
    ((s.delete a).goto t .outside).crewStep (.execute t)
  | .clear =>
    if s.crew.phase = .retired ∧ ∀ t, s.crew.hands t = .retired then some s.clear else none

end Sys

/-- The server, from the start. -/
def system (T : Type) [Fintype T] [DecidableEq T] : Machine (Sys T) (SysAct T) where
  init := .new
  step := Sys.step

/-! ### What a step can do -/

/-- Steps of the scheduler or of a worker that concern the crew alone. -/
def SysAct.crewAct {T : Type} : SysAct T → Option (CrewAct T Addr Event)
  | check => some .check
  | next => some .next
  | leave => some .leave
  | halt => some .halt
  | pill => some .pill
  | take t => some (.take t)
  | putBack t => some (.putBack t)
  | _ => none

namespace Sys

variable {T : Type}

theorem at?_eq_some {s : Sys T} {t : T} {p : Stage} {a : Addr} :
    s.at? t p = some a ↔ s.stage t = p ∧ s.crew.job t = some a := by
  simp [at?]

theorem schedule_eq_some {s s' : Sys T} {a : Addr} (h : s.schedule a = some s') :
    ∃ w, s.works[a]? = some w ∧ s.fds w.fd = .unwatched ∧
      s' = { s with fds := Function.update s.fds w.fd (.armed w.m) } := by
  unfold schedule at h
  split at h
  · cases h
  · next w hw =>
    split at h
    · next hfd =>
      cases h
      exact ⟨w, hw, hfd, rfl⟩
    · cases h

theorem reschedule_eq_some {s s' : Sys T} {a : Addr} (h : s.reschedule a = some s') :
    ∃ w, s.works[a]? = some w ∧ s.fds w.fd ≠ .closed ∧ s.fds w.fd ≠ .unwatched ∧
      s' = { s with fds := Function.update s.fds w.fd (.armed w.m) } := by
  unfold reschedule at h
  split at h
  · cases h
  · next w hw =>
    split at h
    · cases h
    · next hfd =>
      cases h
      rw [not_or] at hfd
      exact ⟨w, hw, hfd.1, hfd.2, rfl⟩

/-- The works stay when one is added. -/
theorem works_concat {s s' : Sys T} {a : Addr} {v w : Work} (hs : s'.works = s.works ++ [w])
    (hv : s.works[a]? = some v) : s'.works[a]? = some v := by
  rw [hs, List.getElem?_append_left (List.getElem?_eq_some_iff.mp hv).1]
  exact hv

theorem works_of_concat {s s' : Sys T} {a : Addr} {v w : Work} (hs : s'.works = s.works ++ [w])
    (hv : s'.works[a]? = some v) : s.works[a]? = some v ∨ a = s.works.length ∧ w = v := by
  rw [hs, List.getElem?_append] at hv
  split at hv
  · exact .inl hv
  · next hge =>
    rw [List.getElem?_singleton] at hv
    split at hv
    · next hzero =>
      cases hv
      have hle := Nat.le_of_sub_eq_zero hzero
      exact .inr ⟨Nat.le_antisymm hle (Nat.le_of_not_lt hge), rfl⟩
    · cases hv

/-- Deletion leaves the other works alone. -/
theorem works_delete_of_ne {s : Sys T} {a b : Addr} (hab : a ≠ b) :
    (s.delete a).works[b]? = s.works[b]? := by
  unfold delete
  split
  · rfl
  · exact List.getElem?_modify_ne _ _ hab

/-- A work that has not been deleted is another one. -/
theorem works_of_delete {s : Sys T} {a b : Addr} {w : Work}
    (hw : (s.delete a).works[b]? = some w) (halive : w.deleted = false) :
    s.works[b]? = some w ∧ a ≠ b := by
  have hab : a ≠ b := by
    rintro rfl
    unfold delete at hw
    split at hw
    · next hnone => cases hnone.symm.trans hw
    · rw [List.getElem?_modify_eq] at hw
      obtain ⟨v, -, rfl⟩ := Option.map_eq_some_iff.mp hw
      cases halive
  rw [works_delete_of_ne hab] at hw
  exact ⟨hw, hab⟩

theorem works_of_foldl_delete {s : Sys T} {as : List Addr} {b : Addr} {w : Work}
    (hw : (as.foldl delete s).works[b]? = some w) (halive : w.deleted = false) :
    s.works[b]? = some w ∧ b ∉ as := by
  induction as generalizing s with
  | nil => exact ⟨hw, List.not_mem_nil⟩
  | cons a as ih =>
    obtain ⟨hold, hrest⟩ := ih hw
    obtain ⟨hold, hab⟩ := works_of_delete hold halive
    refine ⟨hold, ?_⟩
    rw [List.mem_cons, not_or]
    exact ⟨Ne.symm hab, hrest⟩

variable [DecidableEq T]

private theorem crewStep_eq_some {s s' : Sys T} {a : CrewAct T Addr Event} :
    s.crewStep a = some s' ↔ ∃ crew, s.crew.step a = some crew ∧ s' = { s with crew } := by
  rw [crewStep, Option.map_eq_some_iff]
  simp only [eq_comm]

/-- The work for a connection that has been accepted, `src/Scheduler.cpp:232–255`. -/
def accept (s : Sys T) (crew : Crew T Addr Event) (fd : Fd) : Addr × Sys T :=
  { s with crew, fds := Function.update s.fds fd .unwatched }.findWork fd

/-- The work for a new domain socket, registered and not yet scheduled. -/
def relayed (s : Sys T) (a : Addr) (fd : Fd) : Sys T :=
  ({ s with
    works := s.works ++ [Work.new fd .write (.client a)]
    fds := Function.update s.fds fd .unwatched }.registerAlien fd s.works.length).modify a
      (Work.setNosch · true)

/-- The response has been handed over, and the work that waits for it is not yet rescheduled. -/
def delivered (s : Sys T) (a : Addr) (fd : Fd) (b : Addr) : Sys T :=
  ((s.unregister fd).delete a).modify b fun w ↦ { w.setNosch false with m := .write }

/-- The work is about to be rescheduled. -/
def leaving (s : Sys T) (a : Addr) (m : Mode) (deleteme : Bool) : Sys T :=
  s.modify a fun w ↦ { w with m, deleteme := w.deleteme || deleteme }

/-- What a step does: a step of the scheduler or of a worker at the queue, or one of the listed
changes. -/
inductive Moves (s : Sys T) : SysAct T → Sys T → Prop
  | crew {a ca crew} (ha : a.crewAct = some ca) (h : s.crew.step ca = some crew) :
      Moves s a { s with crew }
  | report {events crew} (hr : s.Reports events) (h : s.crew.step (.report events) = some crew) :
      Moves s (.report events) { s.disarm events with crew }
  | callback {crew} (hb : s.crew.batch.head? = some .callback)
      (h : s.crew.step (.handle none) = some crew) : Moves s (.callback none) { s with crew }
  | accept {fd crew s'} (hb : s.crew.batch.head? = some .callback) (hfd : s.fds fd = .closed)
      (h : s.crew.step (.handle none) = some crew)
      (hs : (s.accept crew fd).2.schedule (s.accept crew fd).1 = some s') :
      Moves s (.callback (some fd)) s'
  | hangup {fd crew} (hb : s.crew.batch.head? = some (.hangup fd))
      (h : s.crew.step (.handle none) = some crew) :
      Moves s .handle ((({ s with crew } : Sys T).findWork fd).2.delete
        (({ s with crew } : Sys T).findWork fd).1)
  | ready {fd crew} (hb : s.crew.batch.head? = some (.ready fd))
      (h : s.crew.step (.handle (some (s.findWork fd).1)) = some crew) :
      Moves s .handle { (s.findWork fd).2 with crew }
  | call {t a} (ha : s.at? t .outside = some a) : Moves s (.call t) (s.goto t .inside)
  | relay {t fd a w s'} (ha : s.at? t .inside = some a) (hw : s.works[a]? = some w)
      (hserver : w.isServer = true) (hfd : s.fds fd = .closed)
      (hs : (s.relayed a fd).schedule s.works.length = some s') : Moves s (.relay t fd) s'
  | leak {t fd a w} (ha : s.at? t .inside = some a) (hw : s.works[a]? = some w)
      (hserver : w.isServer = true) (hfd : s.fds fd = .closed) :
      Moves s (.leak t fd) { s with fds := Function.update s.fds fd .unwatched }
  | reschedule {t m deleteme a w s'} (ha : s.at? t .inside = some a) (hw : s.works[a]? = some w)
      (hserver : deleteme = true → w.isServer = true)
      (hs : (s.leaving a m deleteme).reschedule a = some s') :
      Moves s (.reschedule t m deleteme) (s'.goto t .rescheduled)
  | sleep {t a w} (ha : s.at? t .inside = some a) (hw : s.works[a]? = some w)
      (hserver : w.isServer = true) (hsleep : w.nosch = true ∨ w.deleteme = true) :
      Moves s (.sleep t) (s.goto t .returned)
  | fail {t a} (ha : s.at? t .inside = some a) :
      Moves s (.fail t) ((s.modify a fun w ↦ { w with deleteme := true }).goto t .returned)
  | deliver {t a w b s'} (ha : s.at? t .inside = some a) (hw : s.works[a]? = some w)
      (hclient : w.kind = .client b) (hs : (s.delivered a w.fd b).reschedule b = some s') :
      Moves s (.deliver t) (s'.goto t .delivered)
  | resume {t a s'} (ha : s.at? t .delivered = some a) (hs : s.reschedule a = some s') :
      Moves s (.resume t) (s'.goto t .rescheduled)
  | ret {t a} (ha : s.at? t .rescheduled = some a) : Moves s (.ret t) (s.goto t .returned)
  | doom {t a w} (ha : s.at? t .returned = some a) (hw : s.works[a]? = some w)
      (hd : w.deleteme = true) : Moves s (.test t) (s.goto t .doomed)
  | keep {t a w crew} (ha : s.at? t .returned = some a) (hw : s.works[a]? = some w)
      (hd : w.deleteme = false) (h : s.crew.step (.execute t) = some crew) :
      Moves s (.test t) { s.goto t .outside with crew }
  | delete {t a crew} (ha : s.at? t .doomed = some a) (h : s.crew.step (.execute t) = some crew) :
      Moves s (.delete t) { (s.delete a).goto t .outside with crew }
  | clear (hp : s.crew.phase = .retired) (hh : ∀ t, s.crew.hands t = .retired) :
      Moves s .clear s.clear

private theorem moves_of_crewStep {s s' : Sys T} {a : SysAct T} {ca : CrewAct T Addr Event}
    (ha : a.crewAct = some ca) (h : s.crewStep ca = some s') : Moves s a s' := by
  obtain ⟨crew, hcrew, rfl⟩ := crewStep_eq_some.mp h
  exact .crew ha hcrew

private theorem callback_moves {s s' : Sys T} {accepted : Option Fd}
    (h : s.callback accepted = some s') :
    Moves s (.callback accepted) s' := by
  unfold callback at h
  split at h
  · next hb =>
    obtain ⟨crew, hcrew, rfl⟩ := crewStep_eq_some.mp h
    exact .callback hb hcrew
  · next fd hb =>
    split at h
    · next hfd =>
      obtain ⟨s₁, h₁, hs⟩ := Option.bind_eq_some_iff.mp h
      obtain ⟨crew, hcrew, rfl⟩ := crewStep_eq_some.mp h₁
      exact .accept hb hfd hcrew hs
    · cases h
  · cases h

private theorem handle_moves {s s' : Sys T} (h : s.handle = some s') : Moves s .handle s' := by
  unfold handle at h
  split at h
  · next fd hb =>
    obtain ⟨s₁, h₁, hs⟩ := Option.bind_eq_some_iff.mp h
    obtain ⟨crew, hcrew, rfl⟩ := crewStep_eq_some.mp h₁
    cases hs
    exact .hangup hb hcrew
  · next fd hb =>
    obtain ⟨crew, hcrew, rfl⟩ := crewStep_eq_some.mp h
    have hsame : (s.findWork fd).2.crew = s.crew := by
      unfold findWork
      split <;> rfl
    change (s.findWork fd).2.crew.step (.handle (some (s.findWork fd).1)) = some crew at hcrew
    rw [hsame] at hcrew
    exact .ready hb hcrew
  · cases h

private theorem relay_moves {s s' : Sys T} {t : T} {fd : Fd} (h : s.relay t fd = some s') :
    Moves s (.relay t fd) s' := by
  unfold relay at h
  obtain ⟨a, ha, h⟩ := Option.bind_eq_some_iff.mp h
  obtain ⟨w, hw, h⟩ := Option.bind_eq_some_iff.mp h
  split at h
  · next hboth => exact .relay ha hw hboth.1 hboth.2 h
  · cases h

private theorem leak_moves {s s' : Sys T} {t : T} {fd : Fd} (h : s.leak t fd = some s') :
    Moves s (.leak t fd) s' := by
  unfold leak at h
  obtain ⟨a, ha, h⟩ := Option.bind_eq_some_iff.mp h
  obtain ⟨w, hw, h⟩ := Option.bind_eq_some_iff.mp h
  split at h
  · next hboth =>
    cases h
    exact .leak ha hw hboth.1 hboth.2
  · cases h

private theorem deliver_moves {s s' : Sys T} {t : T} (h : s.deliver t = some s') :
    Moves s (.deliver t) s' := by
  unfold deliver at h
  obtain ⟨a, ha, h⟩ := Option.bind_eq_some_iff.mp h
  obtain ⟨w, hw, h⟩ := Option.bind_eq_some_iff.mp h
  split at h
  · cases h
  · next b hclient =>
    obtain ⟨s₁, hs, h⟩ := Option.bind_eq_some_iff.mp h
    cases h
    exact .deliver ha hw hclient hs

/-- Every step is one of the listed moves. -/
theorem step_moves [Fintype T] {s s' : Sys T} {a : SysAct T} (h : s.step a = some s') :
    Moves s a s' := by
  cases a with
  | report events =>
    simp only [step] at h
    split at h
    · next hr =>
      obtain ⟨crew, hcrew, rfl⟩ := crewStep_eq_some.mp h
      exact .report hr hcrew
    · cases h
  | callback accepted => exact callback_moves h
  | handle => exact handle_moves h
  | check | next | leave | halt | pill | take t | putBack t => exact moves_of_crewStep rfl h
  | call t =>
    obtain ⟨a, ha, h⟩ := Option.bind_eq_some_iff.mp h
    cases h
    exact .call ha
  | relay t fd => exact relay_moves h
  | leak t fd => exact leak_moves h
  | reschedule t m deleteme =>
    obtain ⟨a, ha, h⟩ := Option.bind_eq_some_iff.mp h
    obtain ⟨w, hw, h⟩ := Option.bind_eq_some_iff.mp h
    split at h
    · cases h
    · next hserver =>
      obtain ⟨s₁, hs, h⟩ := Option.bind_eq_some_iff.mp h
      cases h
      refine .reschedule ha hw (fun hd ↦ ?_) hs
      simpa [hd] using hserver
  | sleep t =>
    obtain ⟨a, ha, h⟩ := Option.bind_eq_some_iff.mp h
    obtain ⟨w, hw, h⟩ := Option.bind_eq_some_iff.mp h
    split at h
    · next hboth =>
      cases h
      exact .sleep ha hw hboth.1 hboth.2
    · cases h
  | fail t =>
    obtain ⟨a, ha, h⟩ := Option.bind_eq_some_iff.mp h
    cases h
    exact .fail ha
  | deliver t => exact deliver_moves h
  | resume t =>
    obtain ⟨a, ha, h⟩ := Option.bind_eq_some_iff.mp h
    obtain ⟨s₁, hs, h⟩ := Option.bind_eq_some_iff.mp h
    cases h
    exact .resume ha hs
  | ret t =>
    obtain ⟨a, ha, h⟩ := Option.bind_eq_some_iff.mp h
    cases h
    exact .ret ha
  | test t =>
    obtain ⟨a, ha, h⟩ := Option.bind_eq_some_iff.mp h
    obtain ⟨w, hw, h⟩ := Option.bind_eq_some_iff.mp h
    split at h
    · next hd =>
      cases h
      exact .doom ha hw hd
    · next hd =>
      obtain ⟨crew, hcrew, rfl⟩ := crewStep_eq_some.mp h
      exact .keep ha hw (Bool.eq_false_of_not_eq_true hd) hcrew
  | delete t =>
    obtain ⟨a, ha, h⟩ := Option.bind_eq_some_iff.mp h
    obtain ⟨crew, hcrew, rfl⟩ := crewStep_eq_some.mp h
    have hsame : (s.delete a).crew = s.crew := by
      unfold delete
      split <;> rfl
    refine .delete ha ?_
    change (s.delete a).crew.step (.execute t) = some crew at hcrew
    rwa [hsame] at hcrew
  | clear =>
    simp only [step] at h
    split at h
    · next hboth =>
      cases h
      exact .clear hboth.1 hboth.2
    · cases h

end Sys

end Filth.Sched
