import Filth.Sched.Crew
import Filth.Sched.Pool

/-!
# The main loop of the server

`Server::serve`, `src/Server.hpp:340–380`, with `halt`, `src/Server.hpp:230–237`, and what
`CachingServer` adds, `src/CachingServer.hpp:82–87, 129–141`. Every time through its loop the server
builds a job queue, a work map, a scheduler and a cache, starts the scheduler and a pool of workers,
waits until they have retired, and deletes everything. Signals come to the scheduler through a
descriptor: `Scheduler::_sigcb::operator()`, `src/Scheduler.cpp:257–279`, reads some and calls their
handlers, which were registered with `Scheduler::push_sighandler`, `src/Scheduler.cpp:281–308`.
Without that descriptor, `src/Scheduler.cpp:148–150, 294–307`, a handler may run anywhere in
`poll`, also between the test of `dowork` and `epoll_wait`; that is left out. A call of the job queue
is one step, and so is all that a worker does with a job. Nobody sends the emergency signal, which a
`Server` has no number for by default and `HTTP_main` gives one. The last field of a server is for
the proofs alone.
-/

namespace Filth.Sched

open Base

/-- What the loop builds and deletes. -/
inductive Resource where
  | jobq | findwork | sch | cache
  deriving DecidableEq, Repr

/-- Where the main thread is, `src/Server.hpp:341–380`: before the statement that is named, in
`serve` and in what it calls; `startPool` and `endPool` are all of `ThreadPool::start` and of the
pool's destructor. -/
inductive Station where
  | test
  | newQueue
  | newFindwork
  | newScheduler
  | startup
  | handlers
  | startSched
  | startPool
  | endPool
  | join
  | delFindwork
  | delScheduler
  | delQueue
  | shutdown
  | returned
  /-- `exit(1)` -/
  | exited
  deriving DecidableEq, Repr

/-- The handlers that are registered, `src/Server.hpp:357–363`. -/
inductive Handler where
  | halt | flush
  deriving DecidableEq, Repr

/-- What `epoll_wait` reports: something about a connection, or signals that can be read. -/
inductive Tidings where
  | conn
  | signals (l : List Int)
  deriving DecidableEq, Repr

/-- Where the scheduler is in `_sigcb`, `src/Scheduler.cpp:257–279`: not there, at the top of the
loop, or in a handler between the two statements of `Scheduler::halt`, with the signals that have
been read. -/
inductive Sigcb where
  | aside
  | loop (rest : List Int)
  | halting (rest : List Int)
  deriving DecidableEq, Repr

/-- Signals have numbers below this. -/
def NSIG : Int := 65

/-- The arguments of the constructor, `src/Server.hpp:167–205`. A set of signals has no others. -/
structure ServeConfig where
  haltsigs : List Int
  sigflush : Int
  valid : ∀ sig ∈ haltsigs, 0 < sig ∧ sig < NSIG

/-- The server, with `n` workers. -/
structure Serving (n : Nat) (Job : Type) where
  stage : Station
  doserve : Bool
  /-- The resources that have been built and not been deleted. -/
  alive : Resource → Bool
  handlers : Int → Option Handler
  crew : Crew (Fin n) Job Tidings
  sigcb : Sigcb
  pool : Pool n
  /-- A signal that is to end the server has been read. -/
  due : Bool

/-- What the main thread, the scheduler and the workers do. -/
inductive ServeAct (n : Nat) (Job : Type) where
  | main
  | pool (a : PoolAct n)
  | crew (a : CrewAct (Fin n) Job Tidings)
  | read
  | signal
  | pill
  | back
  deriving DecidableEq

/-- The worker has retired. -/
def Hands.isRetired {Job : Type} : Hands Job → Bool
  | retired => true
  | _ => false

/-- There is a scheduler thread that has not been joined. -/
def Station.polls : Station → Bool
  | startPool | endPool | join => true
  | _ => false

/-- The steps of the pool that the main thread makes at this place, and those of the workers. -/
def Station.allows {n : Nat} : Station → PoolAct n → Bool
  | startPool, .start | startPool, .create | startPool, .unlock => true
  | endPool, .destroy | endPool, .test | endPool, .wake | endPool, .relock => true
  | _, .finish _ | _, .enter _ | _, .scan _ | _, .remove _ | _, .notify _ | _, .exit _ => true
  | _, _ => false

namespace Serving

variable {n : Nat} {Job : Type}

/-- Before `serve`. -/
def new (n : Nat) (Job : Type) : Serving n Job :=
  { stage := .test, doserve := true, alive := fun _ ↦ false, handlers := fun _ ↦ none
    crew := .new, sigcb := .aside, pool := .new n, due := false }

/-- `new` and `delete`, `src/Server.hpp:350–377`. -/
def set (s : Serving n Job) (r : Resource) (b : Bool) : Serving n Job :=
  { s with alive := Function.update s.alive r b }

/-- `Scheduler::push_sighandler` where there is a descriptor for signals,
`src/Scheduler.cpp:283–292`: `sigaddset` fails if there is no such signal. -/
def pushSighandler (s : Serving n Job) (sig : Int) (h : Handler) : Serving n Job :=
  if 0 < sig ∧ sig < NSIG then { s with handlers := Function.update s.handlers sig (some h) }
  else { s with stage := .exited }

/-- The next statement of the main thread, `src/Server.hpp:349–379`. -/
def main (cfg : ServeConfig) (s : Serving n Job) : Option (Serving n Job) :=
  match s.stage with
  | .test => some { s with stage := if s.doserve then .newQueue else .returned }
  | .newQueue => some { s.set .jobq true with stage := .newFindwork, crew := .new }
  | .newFindwork => some { s.set .findwork true with stage := .newScheduler }
  | .newScheduler =>
    some { s.set .sch true with stage := .startup, handlers := fun _ ↦ none, sigcb := .aside }
  | .startup =>
    some ({ s.set .cache true with stage := .handlers }.pushSighandler cfg.sigflush .flush)
  | .handlers =>
    some { cfg.haltsigs.foldl (fun s sig ↦ s.pushSighandler sig .halt) s with
      stage := .startSched, pool := .new n }
  | .startSched => some { s with stage := .startPool }
  | .startPool => if s.pool.owner = .started then some { s with stage := .endPool } else none
  | .endPool => if s.pool.owner = .out then some { s with stage := .join } else none
  | .join => if s.crew.phase = .retired then some { s with stage := .delFindwork } else none
  | .delFindwork => some { s.set .findwork false with stage := .delScheduler }
  | .delScheduler => some { s.set .sch false with stage := .delQueue }
  | .delQueue => some { s.set .jobq false with stage := .shutdown }
  | .shutdown => some { s.set .cache false with stage := .test }
  | .returned | .exited => none

/-- Whether the thread that makes this step is there and has come to it. -/
def allows (s : Serving n Job) : CrewAct (Fin n) Job Tidings → Bool
  | .report _ | .check | .next | .leave => s.stage.polls && s.sigcb = .aside
  | .handle _ => s.stage.polls && s.sigcb = .aside && s.crew.batch.head? = some .conn
  | .halt | .pill => false
  | .take t | .putBack t | .execute t => s.pool.life t = .busy

/-- `Scheduler::halt`, the first statement; `src/Scheduler.cpp:310–315`. -/
def halt (s : Serving n Job) (rest : List Int) : Serving n Job :=
  { s with crew := { s.crew with dowork := false, halting := s.crew.halting + 1 },
           sigcb := .halting rest }

/-- There is a signal among these that is to end the server. -/
def ends (s : Serving n Job) (l : List Int) : Bool := l.any fun sig ↦ s.handlers sig = some .halt

/-- One step. A worker leaves for the pool's `operator()` when it has retired. -/
def step (cfg : ServeConfig) (s : Serving n Job) : ServeAct n Job → Option (Serving n Job)
  | .main => s.main cfg
  | .pool a =>
    match a with
    | .finish t =>
      if (s.crew.hands t).isRetired then (s.pool.step a).map fun pool ↦ { s with pool } else none
    | _ => if s.stage.allows a then (s.pool.step a).map fun pool ↦ { s with pool } else none
  | .crew a => if s.allows a then (s.crew.step a).map fun crew ↦ { s with crew } else none
  | .read =>
    match s.crew.batch with
    | .signals l :: _ =>
      if s.stage.polls && s.sigcb = .aside then
        (s.crew.step (.handle none)).map fun crew ↦
          { s with crew, sigcb := .loop l, due := s.due || s.ends l }
      else none
    | _ => none
  | .signal =>
    match s.sigcb with
    | .loop (sig :: rest) =>
      match s.handlers sig with
      | some .halt => some ({ s with doserve := false }.halt rest)
      | some .flush => some (s.halt rest)
      | none => some { s with sigcb := if s.crew.dowork then .loop rest else .aside }
    | _ => none
  | .pill =>
    match s.sigcb with
    | .halting _ => (s.crew.step .pill).map fun crew ↦ { s with crew, sigcb := .aside }
    | _ => none
  | .back => if s.sigcb = .loop [] then some { s with sigcb := .aside } else none

/-- What a step can be. -/
inductive Moves (cfg : ServeConfig) (s : Serving n Job) :
    ServeAct n Job → Serving n Job → Prop where
  | main {s'} (h : s.main cfg = some s') : Moves cfg s .main s'
  | pool {a pool} (ha : s.stage.allows a = true)
      (hretired : ∀ t, a = .finish t → (s.crew.hands t).isRetired = true)
      (h : s.pool.step a = some pool) : Moves cfg s (.pool a) { s with pool }
  | crew {a crew} (ha : s.allows a = true) (h : s.crew.step a = some crew) :
      Moves cfg s (.crew a) { s with crew }
  | read {l batch} (hb : s.crew.batch = .signals l :: batch) (hphase : s.crew.phase = .handling)
      (hpolls : s.stage.polls = true) (haside : s.sigcb = .aside) :
      Moves cfg s .read { s with
        crew := { s.crew with phase := .checking, batch }, sigcb := .loop l
        due := s.due || s.ends l }
  | halt {sig rest} (hs : s.sigcb = .loop (sig :: rest)) (hsig : s.handlers sig = some .halt) :
      Moves cfg s .signal ({ s with doserve := false }.halt rest)
  | flush {sig rest} (hs : s.sigcb = .loop (sig :: rest)) (hsig : s.handlers sig = some .flush) :
      Moves cfg s .signal (s.halt rest)
  | ignore {sig rest} (hs : s.sigcb = .loop (sig :: rest)) (hsig : s.handlers sig = none) :
      Moves cfg s .signal { s with sigcb := if s.crew.dowork then .loop rest else .aside }
  | pill {rest} (hs : s.sigcb = .halting rest) (hpos : 0 < s.crew.halting) :
      Moves cfg s .pill { s with
        crew := { s.crew.enq none with halting := s.crew.halting - 1 }, sigcb := .aside }
  | back (hs : s.sigcb = .loop []) : Moves cfg s .back { s with sigcb := .aside }

/-- Every step is one of these. -/
theorem step_moves {cfg : ServeConfig} {s s' : Serving n Job} {a : ServeAct n Job}
    (h : s.step cfg a = some s') : Moves cfg s a s' := by
  cases a with
  | main => exact .main h
  | pool a =>
    simp only [step] at h
    split at h
    · next t =>
      split at h
      · next hretired =>
        obtain ⟨pool, hp, rfl⟩ := Option.map_eq_some_iff.mp h
        refine .pool (by cases s.stage <;> rfl) (fun u hu ↦ ?_) hp
        cases hu
        exact hretired
      · cases h
    · next hne =>
      split at h
      · next ha =>
        obtain ⟨pool, hp, rfl⟩ := Option.map_eq_some_iff.mp h
        exact .pool ha (fun t ht ↦ absurd ht (hne t)) hp
      · cases h
  | crew a =>
    simp only [step] at h
    split at h
    · next ha =>
      obtain ⟨crew, hc, rfl⟩ := Option.map_eq_some_iff.mp h
      exact .crew ha hc
    · cases h
  | read =>
    simp only [step] at h
    split at h
    · next l batch hb =>
      split at h
      · next hs =>
        obtain ⟨crew, hc, rfl⟩ := Option.map_eq_some_iff.mp h
        simp only [Bool.and_eq_true, decide_eq_true_eq] at hs
        simp only [Crew.step] at hc
        split at hc
        · next hphase hb' =>
          cases hc
          cases hb.symm.trans hb'
          exact .read hb hphase hs.1 hs.2
        · cases hc
      · cases h
    · cases h
  | signal =>
    simp only [step] at h
    split at h
    · next hs =>
      split at h
      · next hsig => cases h; exact .halt hs hsig
      · next hsig => cases h; exact .flush hs hsig
      · next hsig => cases h; exact .ignore hs hsig
    · cases h
  | pill =>
    simp only [step] at h
    split at h
    · next hs =>
      obtain ⟨crew, hc, rfl⟩ := Option.map_eq_some_iff.mp h
      simp only [Crew.step] at hc
      split at hc
      · next hpos =>
        cases hc
        exact .pill hs hpos
      · cases hc
    · cases h
  | back =>
    simp only [step] at h
    split at h
    · next hs => cases h; exact .back hs
    · cases h

end Serving

/-- The server in its main loop. -/
def serving (cfg : ServeConfig) (n : Nat) (Job : Type) :
    Machine (Serving n Job) (ServeAct n Job) where
  init := .new n Job
  step := Serving.step cfg

end Filth.Sched
